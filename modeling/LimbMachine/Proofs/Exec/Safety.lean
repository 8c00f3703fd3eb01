import LimbMachine.Proofs.Check.Accepted
import LimbMachine.Proofs.Exec.Threads

/-!
# Accepted routines run safely

A routine that is accepted does not get stuck. `Routine.Safe` is the invariant: every value fits its
register, and unless the run is over there is a next microcode. One microcode keeps it
(`Safe.progress`) as long as the boundary gives answers that fit, and then a run ends, hits its
limit or ends with an error of the boundary.

What the boundary is trusted with is `Boundary.Serves`: an invariant of its memory, and the errors
it may raise.
-/

namespace LimbMachine

/-- One value for each target, each fitting; a left-out target takes anything. -/
def RegisterFile.Admits (rs : RegisterFile) (targets : List RegId) (values : List Nat) : Prop :=
  List.Forall₂ (fun id v => id.isUsed = true → v < 2 ^ rs.widthOf id) targets values

namespace Routine

/-- A routine that is accepted for a field, has somewhere to start and starts from values that fit,
none of whose sums of sizes runs past the largest size. -/
structure WellFormed (f : Routine) (field : FieldParams) : Prop where
  nonempty : f.code ≠ []
  valid : f.validate field = .ok ()
  padsFit : ∀ r ∈ f.registers, r.fits r.pad = true
  sized : f.Sized

/-- One value for each input, each fitting. -/
def Accepts (f : Routine) (inputs : List Nat) : Prop :=
  List.Forall₂ (fun r v => r.fits v = true) f.inputs inputs

variable {f : Routine} {field : FieldParams}

theorem WellFormed.validate_code (hf : f.WellFormed field) {instruction : Instruction}
    (hi : instruction ∈ f.code) {code : Microcode} (hc : code ∈ instruction) :
    code.validate (f.scope field) = .ok () :=
  (Instruction.validate_ok_iff.1 ((validate_ok_iff.1 hf.valid).2.2 instruction hi)).2.1 code hc

theorem WellFormed.flows (hf : f.WellFormed field) {instruction : Instruction}
    (hi : instruction ∈ f.code) : instruction ≠ [] ∧ instruction.Flows :=
  have h := Instruction.validate_ok_iff.1 ((validate_ok_iff.1 hf.valid).2.2 instruction hi)
  ⟨h.1, h.2.2.1⟩

theorem WellFormed.runnable (hf : f.WellFormed field) {instruction : Instruction}
    (hi : instruction ∈ f.code) {code : Microcode} (hc : code ∈ instruction) :
    code.Runnable f.registers :=
  Microcode.runnable_of_validate (hf.validate_code hi hc) (hf.sized.packed _ hi _ hc)

end Routine

/-! ## Control -/

/-- Where a microcode sends control within an instruction is one of its successors. -/
theorem Microcode.Leads.mem_successors {code : Microcode} {count : Nat}
    (h : code.Leads (.skip count)) (offset : Nat) :
    Word.add offset count ∈ code.successors offset := by
  obtain ⟨hterm, rfl | ⟨distance, hskip, rfl⟩⟩ := h
  · exact mem_successors_iff.2 ⟨hterm, .inl rfl⟩
  · refine mem_successors_iff.2 ⟨hterm, ?_⟩
    cases distance with
    | zero => exact .inl rfl
    | succ distance =>
      exact .inr ⟨distance + 1, hskip, Nat.succ_pos distance,
        (landing_eq offset (distance + 1)).symm⟩

/-- Within an accepted instruction control only moves forward and stays inside. -/
theorem Instruction.Flows.moves_forward {instruction : Instruction} {offset count : Nat}
    {code : Microcode} (hflow : instruction.Flows) (hcode : instruction[offset]? = some code)
    (hsize : offset + 1 + code.skipDistance.getD 0 < Word.modulus)
    (hleads : code.Leads (.skip count)) :
    offset < Word.add offset count ∧ Word.add offset count < instruction.length :=
  ⟨Microcode.lt_of_mem_successors hsize (hleads.mem_successors offset),
    hflow offset code hcode _ (hleads.mem_successors offset)⟩

/-! ## The start -/

namespace State

variable {rs : RegisterFile}

theorem fits_fresh (h : ∀ r ∈ rs, r.fits r.pad = true) : (fresh rs).Fits := by
  refine .of_values (by simp [fresh]) fun i v r hv hr => ?_
  have hpad : v = r.pad := by
    simp only [fresh, List.getElem?_map] at hv hr
    rw [hr] at hv
    exact (Option.some.inj hv).symm
  rw [hpad, ← Register.fits_iff]
  exact h r (List.mem_of_getElem? hr)

end State

namespace Routine

variable {σ : Type} {f : Routine} {field : FieldParams} {inputs : List Nat}

/-- The ids of the inputs, in the order of declaration. -/
def inputIds (f : Routine) : List RegId := (List.range f.numInputs).map .reg

theorem inputs_getElem? {i : Nat} {r : Register} (h : f.inputs[i]? = some r) :
    f.registers[i]? = some r := by
  have hpre : f.inputs <+: f.registers := List.takeWhile_prefix _
  obtain ⟨hi, rfl⟩ := List.getElem?_eq_some_iff.1 h
  exact List.prefix_iff_getElem?.1 hpre i hi

theorem Accepts.takes (h : f.Accepts inputs) :
    List.Forall₂ (State.Takes f.registers) f.inputIds inputs := by
  refine List.forall₂_iff_get.2 ⟨by simp [inputIds, numInputs, h.length_eq],
    fun i hi hv => ?_⟩
  intro _
  have hi' : i < f.inputs.length := by simpa [inputIds, numInputs] using hi
  have hr := inputs_getElem? (List.getElem?_eq_getElem hi')
  have hfit := (List.forall₂_iff_get.1 h).2 i hi' hv
  have hid : f.inputIds.get ⟨i, hi⟩ = .reg i := by simp [inputIds]
  rw [hid, RegisterFile.widthOf_reg hr]
  exact ⟨RegisterFile.declares_reg.2 (List.getElem?_eq_some_iff.1 hr).1,
    (Register.fits_iff _ _).1 hfit⟩

/-- A run on inputs that fit starts, from the pads with the inputs stored. -/
theorem start_assigned (h : f.Accepts inputs) : ∃ s, f.start inputs = .ok s ∧
    (State.fresh f.registers).Assigned f.inputIds inputs s := by
  have hlen : inputs.length = f.numInputs := h.length_eq.symm
  have hnd : f.inputIds.Nodup :=
    List.nodup_range.map fun a b hab => by simpa using hab
  obtain ⟨s, hstore, hs⟩ := State.storeEach_ok (s := State.fresh f.registers)
    (by simp [State.fresh]) (hnd.filter _) h.takes
  have hlines : inputs.zipIdx.map (fun line => (RegId.reg line.2, line.1)) =
      f.inputIds.zip inputs := by
    rw [inputIds, ← hlen, List.zipIdx_eq_zip_range', ← List.range_eq_range']
    apply List.ext_getElem
    · simp
    · intro i h₁ h₂
      simp
  refine ⟨s, ?_, hs⟩
  unfold start
  rw [if_neg (by omega)]
  simp only [hlines, hstore]

/-- The state in which a run starts fits if the pads do. -/
theorem start_ok (hpads : ∀ r ∈ f.registers, r.fits r.pad = true) (h : f.Accepts inputs) :
    ∃ s, f.start inputs = .ok s ∧ s.Fits ∧
      (State.fresh f.registers).Assigned f.inputIds inputs s := by
  obtain ⟨s, hstart, hs⟩ := start_assigned h
  exact ⟨s, hstart, hs.fits (State.fits_fresh hpads) h.takes, hs⟩

end Routine

/-! ## Runs -/

/-- What a routine relies on: whatever it asks, in a memory with `Inv`, is rejected, answered by
values that fit, or ends with an error in `Err`; and `Inv` is kept. -/
def Boundary.Serves {σ : Type} (io : Boundary σ) (f : Routine) (Inv : σ → Prop)
    (Err : RunError → Prop) : Prop :=
  ∀ instruction ∈ f.code, ∀ bus targets sources, Microcode.call bus targets sources ∈
    instruction → ∀ address m, Digits.Fit (f.registers.widths sources) address → Inv m →
      match io.read bus address m with
      | .ok answer m₁ => Inv m₁ ∧ ∀ vs, answer = some vs → f.registers.Admits targets vs
      | .error e m₁ => Inv m₁ ∧ Err e

namespace Routine

variable {σ : Type} {f : Routine} {field : FieldParams} {inputs : List Nat} {io : Boundary σ}
  {Inv : σ → Prop} {Err : RunError → Prop} {t t₁ : Thread σ}

/-- Every value fits, and unless the run is over there is a next microcode. -/
structure Safe (f : Routine) (Inv : σ → Prop) (t : Thread σ) : Prop where
  registers_eq : t.frame.state.registers = f.registers
  fits : t.frame.state.Fits
  inside : t.frame.state.isTerminated = false → ∃ code, f.fetch t.pc t.offset = some code
  memory : Inv t.frame.memory

theorem WellFormed.fetch_zero (hf : f.WellFormed field) {pc : Nat} (h : pc < f.code.length) :
    ∃ code, f.fetch pc 0 = some code := by
  have hpc := List.getElem?_eq_getElem h
  obtain ⟨hne, -⟩ := hf.flows (List.mem_of_getElem? hpc)
  cases hi : f.code[pc] with
  | nil => exact absurd hi hne
  | cons code rest => exact ⟨code, fetch_eq_some_iff.2 ⟨_, hpc, by rw [hi]; rfl⟩⟩

/-- An accepted jump goes to an instruction. -/
theorem WellFormed.jump_lt (hf : f.WellFormed field) {instruction : Instruction}
    (hi : instruction ∈ f.code) {code : Microcode} (hc : code ∈ instruction) {pc : Nat}
    (hleads : code.Leads (.jump pc)) : pc < f.code.length := by
  obtain rfl : code = .jmp pc := hleads
  exact (Microcode.validate_ok_iff.1 (hf.validate_code hi hc)).2

/-- Wherever an accepted microcode sends control, the run is over or there is a next microcode. -/
theorem WellFormed.safe_move (hf : f.WellFormed field) (trace : Bool) {code : Microcode}
    {step : Step} {frame : Frame σ} (hfetch : f.fetch t.pc t.offset = some code)
    (hleads : code.Leads step) (hpc : frame.state.pc = t.pc)
    (hregs : frame.state.registers = f.registers) (hfits : frame.state.Fits)
    (hinv : Inv frame.memory) : f.Safe Inv ((t.record trace frame).move step) := by
  obtain ⟨instruction, hi, hc⟩ := fetch_eq_some_iff.1 hfetch
  have hmem := List.mem_of_getElem? hi
  -- entering an instruction changes the program counter only
  have henter : ∀ pc, ((pc == returnPc || pc == failPc) = false →
    ∃ code, f.fetch pc 0 = some code) →
      f.Safe Inv ((t.record trace frame).enter pc) :=
    fun pc hin => ⟨hregs, ⟨hfits.length_eq, hfits.load_lt⟩, hin, hinv⟩
  cases step with
  | skip count =>
    obtain ⟨-, hlt⟩ := (hf.flows hmem).2.moves_forward hc (hf.sized.landing_lt hmem hc) hleads
    refine ⟨hregs, hfits, fun _ => ?_, hinv⟩
    refine ⟨_, fetch_eq_some_iff.2 ⟨instruction, ?_, List.getElem?_eq_getElem hlt⟩⟩
    exact (congrArg (f.code[·]?) hpc).trans hi
  | jump pc =>
    exact henter pc fun _ => hf.fetch_zero (hf.jump_lt hmem (List.mem_of_getElem? hc) hleads)
  | ret => exact henter returnPc fun h => by cases h
  | fail => exact henter failPc fun h => by cases h

/-- One microcode keeps a run safe, or ends it with an error of the boundary. -/
theorem Safe.progress (hf : f.WellFormed field) (hio : io.Serves f Inv Err) (trace : Bool)
    (ht : f.Safe Inv t) (hrun : t.frame.state.isTerminated = false) :
    (∃ t₁, f.Advances trace io t t₁ ∧ f.Safe Inv t₁) ∨ ∃ e m, f.Aborts io t e m ∧
      Err e ∧ Inv m := by
  obtain ⟨code, hfetch⟩ := ht.inside hrun
  obtain ⟨instruction, hi, hc⟩ := fetch_eq_some_iff.1 hfetch
  have himem := List.mem_of_getElem? hi
  have hcmem := List.mem_of_getElem? hc
  have hrunnable : code.Runnable t.frame.state.registers := by
    rw [ht.registers_eq]
    exact hf.runnable himem hcmem
  cases hlocal : code.isLocal with
  | true =>
    obtain ⟨s₁, hdoes, hassigned, htakes⟩ := Microcode.does_effect hlocal hrunnable ht.fits
    refine .inl ⟨_, ⟨hrun, code, _, _, hfetch, hdoes io t.frame.memory, rfl⟩, ?_⟩
    exact hf.safe_move trace hfetch (Microcode.leads_effect _ _ code) hassigned.pc_eq
      (hassigned.registers_eq.trans ht.registers_eq) (hassigned.fits ht.fits htakes) ht.memory
  | false =>
    cases code with
    | call bus targets sources =>
      obtain ⟨hnd, hdecl⟩ := hrunnable
      have haddress := ht.fits.fit sources
      rw [ht.registers_eq] at haddress
      have hread :=
        hio instruction himem bus targets sources hcmem _ t.frame.memory haddress ht.memory
      cases hans : io.read bus (sources.map t.frame.state.load) t.frame.memory with
      | error e m₁ =>
        rw [hans] at hread
        exact .inr ⟨e, m₁,
          ⟨hrun, .inr ⟨_, _, hfetch, Microcode.execute_call_error hans, rfl⟩⟩,
          hread.2, hread.1⟩
      | ok answer m₁ =>
        rw [hans] at hread
        cases answer with
        | none =>
          refine .inl ⟨_, ⟨hrun, _, _, _, hfetch, Microcode.execute_call_rejected hans, rfl⟩,
            ?_⟩
          exact hf.safe_move trace hfetch trivial rfl ht.registers_eq ht.fits hread.1
        | some vs =>
          have htakes : List.Forall₂ (State.Takes t.frame.state.registers) targets vs := by
            refine List.forall₂_iff_zip.2 ⟨(hread.2 vs rfl).length_eq,
              fun {id v} hz hu => ⟨?_, ?_⟩⟩
            · exact hdecl id (List.mem_filter.2 ⟨(List.of_mem_zip hz).1, hu⟩)
            · rw [ht.registers_eq]
              exact (List.forall₂_iff_zip.1 (hread.2 vs rfl)).2 hz hu
          obtain ⟨s₁, hexec, hassigned⟩ :=
            Microcode.execute_call_answered ht.fits hnd htakes hans
          refine .inl ⟨_, ⟨hrun, _, _, _, hfetch, hexec, rfl⟩, ?_⟩
          exact hf.safe_move trace hfetch ⟨rfl, .inl rfl⟩ hassigned.pc_eq
            (hassigned.registers_eq.trans ht.registers_eq) (hassigned.fits ht.fits htakes) hread.1
    | _ => cases hlocal

/-- A safe thread stays safe. -/
theorem Safe.reaches (hf : f.WellFormed field) (hio : io.Serves f Inv Err) {trace : Bool} {k : Nat}
    (ht : f.Safe Inv t) (h : f.Reaches trace io k t t₁) : f.Safe Inv t₁ := by
  refine h.invariant (fun {t t₁} hsafe hadv => ?_) ht
  rcases hsafe.progress hf hio trace hadv.running with ⟨t₂, hadv₂, hsafe₂⟩ |
    ⟨e, m, habort, -⟩
  · exact hadv.unique hadv₂ ▸ hsafe₂
  · exact absurd habort hadv.not_aborts

/-- The thread in which a run on inputs that fit starts is safe. -/
theorem WellFormed.start_safe (hf : f.WellFormed field) (hin : f.Accepts inputs)
    (Inv : σ → Prop) {m : σ} (hm : Inv m) :
    ∃ s, f.start inputs = .ok s ∧ f.Safe Inv { frame := ⟨s, m⟩ } := by
  obtain ⟨s, hstart, hfits, hassigned⟩ := start_ok hf.padsFit hin
  refine ⟨s, hstart, hassigned.registers_eq, hfits, fun _ => ?_, hm⟩
  have hpc : s.pc = 0 := hassigned.pc_eq
  exact hpc ▸ hf.fetch_zero (List.length_pos_of_ne_nil hf.nonempty)

/-- The outputs of a safe thread fit. -/
theorem Safe.answer_fits (ht : f.Safe Inv t) {vs : List Nat} (h : (f.conclude t).answer = some vs) :
    Digits.Fit (f.registers.widths f.outputIds) vs := by
  by_cases hret : t.pc = returnPc
  · simp only [Execution.answer, Execution.isReturned, conclude, hret, beq_self_eq_true, if_true,
      Option.some.injEq] at h
    rw [← h, ← ht.registers_eq]
    exact ht.fits.fit f.outputIds
  · simp [Execution.answer, Execution.isReturned, conclude, hret] at h

/-- A run ends with outputs that fit, hits its limit or ends with an error of the boundary, and
keeps the boundary's invariant. -/
theorem WellFormed.run_cases (hf : f.WellFormed field) (hio : io.Serves f Inv Err)
    (hin : f.Accepts inputs) (config : RunConfig) {m : σ} (hm : Inv m) :
    match f.run config io inputs m with
    | .ok execution m₁ => Inv m₁ ∧ ∀ vs, execution.answer = some vs →
      Digits.Fit (f.registers.widths f.outputIds) vs
    | .error e m₁ => Inv m₁ ∧ (e = .stepLimit config.maxSteps ∨ Err e) := by
  obtain ⟨s, hstart, hsafe⟩ := hf.start_safe hin Inv hm
  unfold run
  rw [hstart]
  rcases resume_cases f config io config.maxSteps { frame := ⟨s, m⟩ } with
    ⟨k, t₁, -, hreach, -, heq⟩ | ⟨t₁, hreach, heq⟩ |
    ⟨k, t₁, e, m₁, hreach, habort, heq⟩
  · simp only [heq]
    have hsafe₁ := hsafe.reaches hf hio hreach
    exact ⟨hsafe₁.memory, fun vs hvs => hsafe₁.answer_fits hvs⟩
  · simp only [heq]
    exact ⟨(hsafe.reaches hf hio hreach).memory, .inl trivial⟩
  · simp only [heq]
    have hsafe₁ := hsafe.reaches hf hio hreach
    rcases hsafe₁.progress hf hio config.trace habort.running with
      ⟨t₂, hadv, -⟩ | ⟨e', m', habort', herr, hinv⟩
    · exact absurd habort hadv.not_aborts
    · obtain ⟨rfl, rfl⟩ := habort.unique habort'
      exact ⟨hinv, .inr herr⟩

end Routine

/-- Each call of a routine is rejected or answered by exactly one fitting value for each target. -/
def Boundary.AnswersFit {σ : Type} (io : Boundary σ) (f : Routine) : Prop :=
  ∀ instruction ∈ f.code, ∀ bus targets sources, Microcode.call bus targets sources ∈
    instruction → ∀ address m, f.registers.Admits sources address → ∃ answer m₁,
      io.read bus address m = .ok answer m₁ ∧ ∀ vs, answer = some vs →
      f.registers.Admits targets vs

theorem Boundary.AnswersFit.serves {σ : Type} {io : Boundary σ} {f : Routine}
    (h : io.AnswersFit f) : io.Serves f (fun _ => True) fun _ => False := by
  intro instruction hi bus targets sources hc address m haddress _
  have hadmits : f.registers.Admits sources address := by
    refine List.Forall₂.imp (fun id v hlt => ?_) (List.forall₂_map_left_iff.1 haddress)
    exact fun _ => hlt
  obtain ⟨answer, m₁, hread, hfit⟩ :=
    h instruction hi bus targets sources hc address m hadmits
  rw [hread]
  exact ⟨trivial, hfit⟩

namespace Routine

variable {σ : Type} {f : Routine} {field : FieldParams} {inputs : List Nat} {io : Boundary σ}

/-- **Validation is sound**: an accepted routine returns, fails or hits its step limit, and in every
state on the way every register holds a value below `2 ^ width`. -/
theorem run_safe (hf : f.WellFormed field) (hin : f.Accepts inputs) (hio : io.AnswersFit f)
    (config : RunConfig) (m : σ) :
    ((∃ execution m₁, f.run config io inputs m = .ok execution m₁) ∨
      ∃ m₁, f.run config io inputs m = .error (.stepLimit config.maxSteps) m₁) ∧
    ∃ s, f.start inputs = .ok s ∧
      ∀ k t, f.Reaches config.trace io k { frame := ⟨s, m⟩ } t →
      t.frame.state.registers = f.registers ∧ t.frame.state.Fits := by
  have hserves := hio.serves
  constructor
  · have hrun := hf.run_cases hserves hin config (m := m) trivial
    cases heq : f.run config io inputs m with
    | ok execution m₁ => exact .inl ⟨execution, m₁, rfl⟩
    | error e m₁ =>
      rw [heq] at hrun
      obtain ⟨-, rfl | himpossible⟩ := hrun
      · exact .inr ⟨m₁, rfl⟩
      · exact himpossible.elim
  · obtain ⟨s, hstart, hsafe⟩ := hf.start_safe (m := m) hin (fun _ => True) trivial
    refine ⟨s, hstart, fun k t hreach => ?_⟩
    have ht := hsafe.reaches hf hserves hreach
    exact ⟨ht.registers_eq, ht.fits⟩

/-- Asks a bus, subtracts the input and one from the answer, and counts down until it is told
zero. -/
def tally : Routine where
  name := "tally"
  registers := [⟨.input, "n", 8, 0⟩, ⟨.output, "r", 8, 0⟩, ⟨.temp, "t", 8, 5⟩,
    ⟨.temp, "b", 1, 0⟩]
  buses := [⟨"next", some 0, [.reg 0], [.reg 2]⟩]
  code :=
    [[.call 0 [.reg 2] [.reg 0], .sub [.reg 1, .reg 3] [.reg 2, .reg 0] 1,
      .skip (.reg 3) .unused 0 1, .jmp 1, .jmp 0],
     [.cast [.reg 2] (.reg 1) 4, .ret]]

theorem run_safe_tally :
    ((∃ execution m₁, tally.run {} (Boundary.ofFn fun _ _ => .ok (some [9])) [9] () =
        .ok execution m₁) ∨
      ∃ m₁, tally.run {} (Boundary.ofFn fun _ _ => .ok (some [9])) [9] () =
        .error (.stepLimit 1000000) m₁) ∧
    ∃ s, tally.start [9] = .ok s ∧ ∀ k t,
      tally.Reaches false (Boundary.ofFn fun _ _ => .ok (some [9])) k { frame := ⟨s, ()⟩ } t →
        t.frame.state.registers = tally.registers ∧ t.frame.state.Fits := by
  have hf : tally.WellFormed .unbounded :=
    ⟨by decide, rfl, by decide, by decide, by decide, by decide⟩
  have hin : tally.Accepts [9] := .cons (by decide) .nil
  have hcalls : ∀ instruction ∈ tally.code, ∀ code ∈ instruction,
      code.isLocal = true ∨ code = .call 0 [.reg 2] [.reg 0] := by decide
  have hio : (Boundary.ofFn fun _ _ => .ok (some [9])).AnswersFit tally := by
    intro instruction hi bus targets sources hc address m _
    refine ⟨some [9], m, rfl, fun vs hvs => ?_⟩
    cases hvs
    rcases hcalls instruction hi _ hc with hlocal | hcall
    · cases hlocal
    · cases hcall
      exact .cons (fun _ => by decide) .nil
  exact run_safe hf hin hio {} ()

end Routine

end LimbMachine
