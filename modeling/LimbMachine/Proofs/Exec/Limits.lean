import LimbMachine.Machine
import LimbMachine.Proofs.Exec.Boundaries
import LimbMachine.Proofs.Failure

/-!
# Step limits

A step limit cuts a run off and does nothing else. `Routine.performed` are the places of the
microcodes that a run executes, the one that fails included. With a smaller limit these are the
first of them, and the run gives what it gave before if the limit leaves room for all of them
(`Routine.run_cut`). Where there is no microcode the run ends before the limit is looked at, so a
limit that is used up exactly hides nothing.

The error of an exhausted limit does not say whose limit it was: a boundary that runs routines of
its own may answer with it. This is the one way in which it comes out of a run that has steps left
(`Routine.performed_of_limit`).
-/

namespace LimbMachine

/-! ## The errors of a microcode -/

/-- A value or an answer does not fit the registers it is for. -/
def RunError.IsMisfit : RunError → Prop
  | .widthViolation .. | .badResponse .. => True
  | _ => False

namespace State

theorem store_raises (id : RegId) (v : Nat) (s : State) :
    RaisesOnly RunError.IsMisfit (store id v s) := by
  intro e s₁ h
  unfold store at h
  cases id with
  | unused => cases h
  | reg i =>
    dsimp only at h
    split at h
    · cases h
      trivial
    · split at h
      · cases h
      · cases h
        trivial

theorem storeEach_raises (lines : List (RegId × Nat)) (s : State) :
    RaisesOnly RunError.IsMisfit (storeEach lines s) := by
  induction lines generalizing s with
  | nil => exact .of_ok rfl
  | cons line rest ih => exact (store_raises _ _ s).bind fun _ s₁ _ => ih s₁

theorem storeSlices_raises (negative : Bool) (source offset : Nat) (ids : List RegId) (s : State) :
    RaisesOnly RunError.IsMisfit (storeSlices negative source offset ids s) := by
  induction ids generalizing offset s with
  | nil => exact .of_ok rfl
  | cons id rest ih =>
    unfold storeSlices
    rw [estate_get_bind]
    exact (store_raises _ _ s).bind fun _ s₁ _ => ih _ s₁

theorem storeAcross_raises (v : Int) (ids : List RegId) (s : State) :
    RaisesOnly RunError.IsMisfit (storeAcross v ids s) := by
  refine (storeSlices_raises _ _ _ ids s).bind fun width s₁ _ =>
    RaisesOnly.ite (fun _ => ?_) fun _ => ?_
  · intro e s₂ h
    cases h
    trivial
  · exact .of_ok rfl

theorem subtract_raises (targets sources : List RegId) (constant : Nat) (s : State) :
    RaisesOnly RunError.IsMisfit (subtract targets sources constant s) := by
  unfold subtract
  rw [estate_get_bind]
  exact (storeAcross_raises _ _ s).bind fun _ s₁ _ => storeAcross_raises _ _ s₁

end State

section Errors

variable {σ : Type} {io : Boundary σ} {frame frame₁ : Frame σ} {code : Microcode}
    {e : RunError}

theorem Frame.onState_raises {α : Type} {P : RunError → Prop} {x : Update α}
    (h : RaisesOnly P (x frame.state)) : RaisesOnly P ((Frame.onState x : Exec σ α) frame) := by
  intro e frame₁ he
  unfold Frame.onState at he
  split at he
  · cases he
  · rename_i hx
    cases he
    exact h _ _ hx

/-- A call that is answered fails only if the answer does not fit. -/
theorem Microcode.call_raises {bus : Nat} {targets sources : List RegId}
    {answer : Option (List Nat)} {m₁ : σ}
    (hread : io.read bus (sources.map frame.state.load) frame.memory = .ok answer m₁) :
    RaisesOnly RunError.IsMisfit ((call bus targets sources).execute io frame) := by
  have hmem : (Frame.onMemory (io.read bus (sources.map frame.state.load)) : Exec σ _) frame =
      .ok answer ⟨frame.state, m₁⟩ := by simp [Frame.onMemory, hread]
  have htransact : RaisesOnly RunError.IsMisfit (Frame.transact io bus sources targets frame) := by
    unfold Frame.transact
    rw [estate_get_bind, estate_bind_of_ok hmem]
    cases answer with
    | none => exact .of_ok rfl
    | some response =>
      refine RaisesOnly.ite (fun _ => ?_) fun _ => ?_
      · exact .throw trivial
      · exact (Frame.onState_raises (State.storeEach_raises _ _)).bind fun _ _ _ => .of_ok rfl
  unfold execute
  rw [estate_get_bind]
  refine htransact.bind fun answered _ _ => ?_
  cases answered with
  | true => exact .of_ok rfl
  | false => exact .of_ok rfl

/-- A microcode fails at something that does not fit, or with the answer to its request. -/
theorem Microcode.execute_error (h : code.execute io frame = .error e frame₁) :
    e.IsMisfit ∨ ∃ bus targets sources, code = .call bus targets sources ∧
      io.read bus (sources.map frame.state.load) frame.memory = .error e frame₁.memory := by
  have hstore : ∀ {x : Update Unit}, RaisesOnly RunError.IsMisfit (x frame.state) →
      RaisesOnly RunError.IsMisfit ((do Frame.onState x; return .skip 1 : Exec σ Step) frame) :=
    fun hx => (Frame.onState_raises hx).bind fun _ _ _ => .of_ok rfl
  cases code with
  | call bus targets sources =>
    cases hread : io.read bus (sources.map frame.state.load) frame.memory with
    | ok answer m₁ => exact .inl (call_raises hread _ _ h)
    | error e' m₁ =>
      have hexec := (execute_call_error hread).symm.trans h
      cases hexec
      exact .inr ⟨bus, targets, sources, rfl, hread⟩
  | assign targets rhs => exact .inl (hstore (State.storeAcross_raises _ _ _) _ _ h)
  | add targets sources constant => exact .inl (hstore (State.storeAcross_raises _ _ _) _ _ h)
  | mul targets sources constant => exact .inl (hstore (State.storeAcross_raises _ _ _) _ _ h)
  | sub targets sources constant => exact .inl (hstore (State.subtract_raises _ _ _ _) _ _ h)
  | cast targets source width =>
    refine .inl (RaisesOnly.ite (fun _ => .of_ok rfl) (fun _ => ?_) _ _ h)
    exact hstore (State.storeAcross_raises _ _ _)
  | div quotient remainder witness dividend divisor =>
    refine .inl (RaisesOnly.ite (fun _ => .of_ok rfl) (fun _ => hstore ?_) _ _ h)
    rw [State.divide_eq_storeEach]
    exact State.storeEach_raises _ _
  | skip left right constant distance => cases h
  | skipIf left right constant distance => cases h
  | jmp target => cases h
  | ret => cases h
  | fail => cases h

end Errors

/-- The boundary may answer with the error. -/
def Boundary.Raises {σ : Type} (io : Boundary σ) (e : RunError) : Prop :=
  ∃ bus address m, given (io.read bus address m) = .error e

theorem Routine.start_raises {f : Routine} {inputs : List Nat} {e : RunError}
    (h : f.start inputs = .error e) :
    e.IsMisfit ∨ e = .inputArity f.name f.numInputs inputs.length := by
  unfold start at h
  split at h
  · cases h
    exact .inr rfl
  · dsimp only at h
    split at h
    · cases h
    · rename_i hstore
      cases h
      exact .inl (State.storeEach_raises _ _ _ _ hstore)

/-! ## Runs that are cut off -/

namespace Routine

variable {σ : Type} {f : Routine} {trace : Bool} {io : Boundary σ} {t t₁ : Thread σ}
  {config : RunConfig} {n k : Nat} {inputs : List Nat} {m : σ}

/-- The places of the microcodes that are executed from here on, for `fuel` of them at most. One
that fails is executed too. -/
def performs (f : Routine) (trace : Bool) (io : Boundary σ) (fuel : Nat) (t : Thread σ) :
    List (Nat × Nat) :=
  if t.frame.state.isTerminated then
    []
  else
    match f.fetch t.pc t.offset with
    | none => []
    | some code =>
      match fuel with
      | 0 => []
      | fuel + 1 =>
        match code.execute io t.frame with
        | .error _ _ => [(t.pc, t.offset)]
        | .ok step frame =>
          (t.pc, t.offset) :: f.performs trace io fuel ((t.record trace frame).move step)

/-- The places of the microcodes that a run executes, in order. -/
def performed (f : Routine) (config : RunConfig) (io : Boundary σ) (inputs : List Nat) (m : σ) :
    List (Nat × Nat) :=
  match f.start inputs with
  | .error _ => []
  | .ok s => f.performs config.trace io config.maxSteps { frame := ⟨s, m⟩ }

/-- A thread that is over, or has no microcode to execute, executes none. -/
theorem performs_stopped (h : t.frame.state.isTerminated = true ∨ f.fetch t.pc t.offset = none) :
    f.performs trace io n t = [] := by
  rw [performs]
  rcases h with h | h
  · simp [h]
  · simp [h]

theorem performs_zero (f : Routine) (trace : Bool) (io : Boundary σ) (t : Thread σ) :
    f.performs trace io 0 t = [] := by
  rw [performs]
  cases f.fetch t.pc t.offset with
  | none => simp
  | some code => simp

theorem performs_advances (h : f.Advances trace io t t₁) :
    f.performs trace io (n + 1) t = (t.pc, t.offset) :: f.performs trace io n t₁ := by
  obtain ⟨hrun, code, step, frame, hfetch, hexec, rfl⟩ := h
  rw [performs]
  simp [hrun, hfetch, hexec]

theorem performs_breaks {code : Microcode} {e : RunError} {frame : Frame σ}
    (hrun : t.frame.state.isTerminated = false) (hfetch : f.fetch t.pc t.offset = some code)
    (hexec : code.execute io t.frame = .error e frame) :
    f.performs trace io (n + 1) t = [(t.pc, t.offset)] := by
  rw [performs]
  simp [hrun, hfetch, hexec]

theorem length_performs_pos {code : Microcode} (hrun : t.frame.state.isTerminated = false)
    (hfetch : f.fetch t.pc t.offset = some code) : 0 < (f.performs trace io (n + 1) t).length := by
  rw [performs]
  cases hexec : code.execute io t.frame with
  | ok step frame => simp [hrun, hfetch, hexec]
  | error e frame => simp [hrun, hfetch, hexec]

theorem resume_lost (hrun : t.frame.state.isTerminated = false)
    (hfetch : f.fetch t.pc t.offset = none) :
    f.resume config io n t = .error (.invalidPc t.pc t.offset) t.frame.memory := by
  rw [resume]
  simp [hrun, hfetch]

/-- Where there is a microcode, an exhausted limit is found before it is executed. -/
theorem resume_exhausted {code : Microcode} (hrun : t.frame.state.isTerminated = false)
    (hfetch : f.fetch t.pc t.offset = some code) :
    f.resume config io 0 t = .error (.stepLimit config.maxSteps) t.frame.memory := by
  rw [resume]
  simp [hrun, hfetch]

/-- A run that gives a thread has reached it within the limit. -/
theorem reaches_of_resume_ok (h : f.resume config io n t = .ok t₁ m) :
    ∃ k ≤ n, f.Reaches config.trace io k t t₁ ∧ t₁.frame.state.isTerminated = true := by
  rcases resume_cases f config io n t with
    ⟨k, t₂, hk, hreach, hterm, heq⟩ | ⟨t₂, -, heq⟩ | ⟨k, t₂, e, m', -, -, heq⟩
  · rw [heq] at h
    cases h
    exact ⟨k, hk, hreach, hterm⟩
  · rw [heq] at h
    cases h
  · rw [heq] at h
    cases h

/-- With a smaller limit, the first of the microcodes are executed. -/
theorem performs_take (f : Routine) (trace : Bool) (io : Boundary σ) (hle : n ≤ k)
    (t : Thread σ) : f.performs trace io n t = (f.performs trace io k t).take n := by
  induction k generalizing n t with
  | zero =>
    obtain rfl := Nat.le_zero.1 hle
    rw [performs_zero, List.take_zero]
  | succ k ih =>
    cases n with
    | zero => rw [performs_zero, List.take_zero]
    | succ n =>
      rcases terminated_or_advances_or_aborts f trace io t with hterm | ⟨t₁, h⟩ |
        ⟨e, m, hrun, hcause⟩
      · rw [performs_stopped (.inl hterm), performs_stopped (.inl hterm), List.take_nil]
      · rw [performs_advances h, performs_advances h, List.take_succ_cons, ih (by omega)]
      · obtain ⟨hfetch, -, -⟩ | ⟨code, frame, hfetch, hexec, -⟩ := hcause
        · rw [performs_stopped (.inr hfetch), performs_stopped (.inr hfetch), List.take_nil]
        · rw [performs_breaks hrun hfetch hexec, performs_breaks hrun hfetch hexec,
            List.take_succ_cons, List.take_nil]

/-- With a smaller limit a run gives what it gave before, or finds its limit exhausted if it would
have to execute more microcodes. -/
theorem resume_cut (f : Routine) (config : RunConfig) (io : Boundary σ) {limit limit' : Nat}
    (hle : n ≤ k) (hsame : n = k → limit = limit') (t : Thread σ) :
    given (f.resume { config with maxSteps := limit } io n t) =
      if (f.performs config.trace io k t).length ≤ n then
        given (f.resume { config with maxSteps := limit' } io k t)
      else .error (.stepLimit limit) := by
  induction n generalizing k t with
  | zero =>
    cases hrun : t.frame.state.isTerminated with
    | true =>
      rw [resume_terminated hrun, resume_terminated hrun, performs_stopped (.inl hrun)]
      rfl
    | false =>
      cases hfetch : f.fetch t.pc t.offset with
      | none =>
        rw [resume_lost hrun hfetch, resume_lost hrun hfetch, performs_stopped (.inr hfetch)]
        rfl
      | some code =>
        rw [resume_exhausted hrun hfetch]
        cases k with
        | zero =>
          rw [performs_zero, resume_exhausted hrun hfetch, ← hsame rfl]
          rfl
        | succ k =>
          have hmore : 0 < (f.performs config.trace io (k + 1) t).length :=
            length_performs_pos hrun hfetch
          rw [if_neg (by omega)]
          rfl
  | succ n ih =>
    obtain ⟨k, rfl⟩ : ∃ j, k = j + 1 := ⟨k - 1, by omega⟩
    rcases terminated_or_advances_or_aborts f config.trace io t with hterm | ⟨t₁, h⟩ |
      ⟨e, m, habort⟩
    · rw [resume_terminated hterm, resume_terminated hterm, performs_stopped (.inl hterm)]
      rfl
    · have hfewer : (f.performs config.trace io k t₁).length ≤ n ↔
          (f.performs config.trace io (k + 1) t).length ≤ n + 1 := by
        rw [performs_advances h, List.length_cons, Nat.add_le_add_iff_right]
      have hnext : ∀ limit j, f.resume { config with maxSteps := limit } io (j + 1) t =
          f.resume { config with maxSteps := limit } io j t₁ := fun _ _ => resume_advances h
      rw [hnext, hnext, ih (by omega) fun heq => hsame (congrArg (· + 1) heq)]
      simp only [hfewer]
    · rw [resume_aborts habort, resume_aborts habort, if_pos]
      obtain ⟨hrun, ⟨hfetch, -, -⟩ | ⟨code, frame, hfetch, hexec, -⟩⟩ := habort
      · rw [performs_stopped (.inr hfetch)]
        exact Nat.zero_le _
      · rw [performs_breaks hrun hfetch hexec]
        exact Nat.succ_le_succ (Nat.zero_le n)

/-- Every microcode that a run executes is counted. -/
theorem Reaches.steps_eq (h : f.Reaches trace io k t t₁) : t₁.steps = t.steps + k := by
  induction h with
  | refl t => rfl
  | step first _ ih =>
    obtain ⟨-, code, step, frame, -, -, rfl⟩ := first
    rw [ih]
    cases step <;> simp [Thread.move, Thread.record, Thread.enter] <;> omega

theorem Reaches.length_performs (h : f.Reaches trace io k t t₁) (n : Nat) :
    (f.performs trace io (k + n) t).length = k + (f.performs trace io n t₁).length := by
  induction h with
  | refl t => rw [Nat.zero_add, Nat.zero_add]
  | step first _ ih =>
    rw [Nat.add_right_comm, performs_advances first, List.length_cons, ih]
    omega

/-- At a steady boundary the same microcodes are executed with any memory. -/
theorem performs_steady (hio : io.Steady) (n : Nat) (t : Thread σ) (m' : σ) :
    f.performs trace io n (t.withMemory m') = f.performs trace io n t := by
  induction n generalizing t m' with
  | zero => rw [performs_zero, performs_zero]
  | succ n ih =>
    rcases terminated_or_advances_or_aborts f trace io t with hterm | ⟨t₁, h⟩ |
      ⟨e, m, habort⟩
    · have hterm' : (t.withMemory m').frame.state.isTerminated = true := hterm
      rw [performs_stopped (.inl hterm), performs_stopped (.inl hterm')]
    · obtain ⟨m₁', h'⟩ := h.steady hio m'
      rw [performs_advances h, performs_advances h', ih]
      rfl
    · obtain ⟨hrun, ⟨hfetch, -, -⟩ | ⟨code, frame, hfetch, hexec, -⟩⟩ := id habort
      · have hfetch' : f.fetch (t.withMemory m').pc (t.withMemory m').offset = none := hfetch
        rw [performs_stopped (.inr hfetch), performs_stopped (.inr hfetch')]
      · -- with another memory the microcode fails too, or else it would not fail with this one
        cases hexec' : code.execute io (t.withMemory m').frame with
        | ok step frame' =>
          obtain ⟨m₁, h⟩ := Microcode.execute_steady hio hexec' t.frame.memory
          have hboth := hexec.symm.trans h
          cases hboth
        | error e' frame' =>
          have hrun' : (t.withMemory m').frame.state.isTerminated = false := hrun
          rw [performs_breaks hrun hfetch hexec, performs_breaks hrun' hfetch hexec']
          rfl

/-! ## Runs -/

theorem given_finish (result : EStateM.Result RunError σ (Thread σ)) :
    given (f.finish result) = (given result).map f.conclude := by
  cases result with
  | ok t m => rfl
  | error e m => rfl

theorem given_run_of_start {s : State} (h : f.start inputs = .ok s) (config : RunConfig)
    (io : Boundary σ) (m : σ) : given (f.run config io inputs m) =
      (given (f.resume config io config.maxSteps { frame := ⟨s, m⟩ })).map f.conclude := by
  rw [run_eq_finish h, given_finish]

theorem given_run_of_refused {e : RunError} (h : f.start inputs = .error e) (config : RunConfig)
    (io : Boundary σ) (m : σ) : given (f.run config io inputs m) = .error e := by
  unfold run
  rw [h]
  rfl

theorem performed_steady (hio : io.Steady) (f : Routine) (config : RunConfig) (inputs : List Nat)
    (m m' : σ) : f.performed config io inputs m' = f.performed config io inputs m := by
  unfold performed
  cases f.start inputs with
  | error e => rfl
  | ok s => exact performs_steady hio config.maxSteps { frame := ⟨s, m⟩ } m'

theorem performed_take (f : Routine) (config : RunConfig) (io : Boundary σ)
    (inputs : List Nat) (m : σ) (hle : n ≤ k) :
    f.performed { config with maxSteps := n } io inputs m =
      (f.performed { config with maxSteps := k } io inputs m).take n := by
  unfold performed
  cases f.start inputs with
  | error e => exact List.take_nil.symm
  | ok s => exact performs_take f config.trace io hle { frame := ⟨s, m⟩ }

/-- A run with a smaller limit gives the same, or finds its limit exhausted if more microcodes than
that were executed. -/
theorem run_cut (f : Routine) (config : RunConfig) (io : Boundary σ) (inputs : List Nat) (m : σ)
    (hle : n ≤ k) : given (f.run { config with maxSteps := n } io inputs m) =
      if (f.performed { config with maxSteps := k } io inputs m).length ≤ n then
        given (f.run { config with maxSteps := k } io inputs m)
      else .error (.stepLimit n) := by
  unfold performed
  cases hstart : f.start inputs with
  | error e =>
    rw [given_run_of_refused hstart, given_run_of_refused hstart]
    rfl
  | ok s =>
    rw [given_run_of_start hstart, given_run_of_start hstart, resume_cut f config io hle id]
    dsimp only
    split
    · rfl
    · rfl

/-- A run that ends has started, and its thread reached the end within the limit. -/
theorem reaches_of_run_ok {e : Execution} (h : given (f.run config io inputs m) = .ok e) :
    ∃ s k t, f.start inputs = .ok s ∧ k ≤ config.maxSteps ∧
      f.Reaches config.trace io k { frame := ⟨s, m⟩ } t ∧
        t.frame.state.isTerminated = true ∧
      e = f.conclude t := by
  cases hstart : f.start inputs with
  | error e' =>
    rw [given_run_of_refused hstart] at h
    cases h
  | ok s =>
    rw [given_run_of_start hstart] at h
    cases hresume : f.resume config io config.maxSteps { frame := ⟨s, m⟩ } with
    | error e' m' =>
      rw [hresume] at h
      cases h
    | ok t m' =>
      rw [hresume] at h
      cases h
      obtain ⟨k, hk, hreach, hterm⟩ := reaches_of_resume_ok hresume
      exact ⟨s, k, t, rfl, hk, hreach, hterm, rfl⟩

/-- A run that ends has counted the microcodes it executed. -/
theorem performed_of_ok {e : Execution} (h : given (f.run config io inputs m) = .ok e) :
    (f.performed config io inputs m).length = e.steps := by
  obtain ⟨s, k, t, hstart, hk, hreach, hterm, rfl⟩ := reaches_of_run_ok h
  have hlength := hreach.length_performs (config.maxSteps - k)
  rw [Nat.add_sub_cancel' hk, performs_stopped (.inl hterm)] at hlength
  rw [performed, hstart]
  dsimp only
  rw [hlength, conclude, hreach.steps_eq]
  simp

/-- A run that gives up at its limit has used it up, unless its boundary answered with this
error. -/
theorem performed_of_limit
    (h : given (f.run config io inputs m) = .error (.stepLimit config.maxSteps)) :
    (f.performed config io inputs m).length = config.maxSteps ∨
      io.Raises (.stepLimit config.maxSteps) := by
  cases hstart : f.start inputs with
  | error e' =>
    rw [given_run_of_refused hstart] at h
    cases h
    rcases start_raises hstart with hmisfit | harity
    · exact hmisfit.elim
    · cases harity
  | ok s =>
    rw [given_run_of_start hstart] at h
    rcases resume_cases f config io config.maxSteps { frame := ⟨s, m⟩ } with
      ⟨k, t, -, -, -, heq⟩ | ⟨t, hreach, -⟩ | ⟨k, t, e', m', -, habort, heq⟩
    · rw [heq] at h
      cases h
    · refine .inl ?_
      have hlength := hreach.length_performs 0
      rw [performs_zero] at hlength
      rw [performed, hstart]
      exact hlength
    · rw [heq] at h
      cases h
      obtain ⟨-, ⟨-, hlost, -⟩ | ⟨code, frame, -, hexec, -⟩⟩ := habort
      · cases hlost
      · rcases Microcode.execute_error hexec with hmisfit | ⟨bus, targets, sources, -, hread⟩
        · exact hmisfit.elim
        · exact .inr ⟨bus, _, _, congrArg given hread⟩

/-- **The step limit is exact.** Let a run at a steady boundary be repeated with a smaller limit. If
it ended, it gives the same execution, provided that the limit is not less than the steps it took;
if it found its limit exhausted, it does so again, unless the boundary itself answered with this
error; if it ended with another error, it gives that or finds its limit exhausted. The microcodes
that are executed are the first ones of those before, as many as the limit allows. They decide what
comes out: it is what came out before if they are all there, and an exhausted limit otherwise; a run
that ended has counted them as its steps. -/
theorem run_limit_exact (hio : io.Steady) (f : Routine) (config : RunConfig) (inputs : List Nat)
    (m m' : σ) (hle : n ≤ k) :
    (∀ e, given (f.run { config with maxSteps := k } io inputs m) = .ok e →
      (e.steps ≤ n → given (f.run { config with maxSteps := n } io inputs m') = .ok e) ∧
      (n < e.steps →
        given (f.run { config with maxSteps := n } io inputs m') = .error (.stepLimit n))) ∧
    (given (f.run { config with maxSteps := k } io inputs m) = .error (.stepLimit k) →
      given (f.run { config with maxSteps := n } io inputs m') = .error (.stepLimit n) ∨
      (io.Raises (.stepLimit k) ∧
        given (f.run { config with maxSteps := n } io inputs m') = .error (.stepLimit k))) ∧
    (∀ e, given (f.run { config with maxSteps := k } io inputs m) = .error e →
      given (f.run { config with maxSteps := n } io inputs m') = .error e ∨
      given (f.run { config with maxSteps := n } io inputs m') = .error (.stepLimit n)) ∧
    (f.performed { config with maxSteps := n } io inputs m').length ≤ n ∧
    f.performed { config with maxSteps := n } io inputs m' =
      (f.performed { config with maxSteps := k } io inputs m).take n ∧
    (given (f.run { config with maxSteps := n } io inputs m') =
      if (f.performed { config with maxSteps := k } io inputs m).length ≤ n then
        given (f.run { config with maxSteps := k } io inputs m)
      else .error (.stepLimit n)) ∧
    ∀ e, given (f.run { config with maxSteps := k } io inputs m) = .ok e →
      (f.performed { config with maxSteps := k } io inputs m).length = e.steps := by
  have hcut := run_cut f config io inputs m hle
  have htake := performed_take f config io inputs m hle
  rw [run_steady hio f { config with maxSteps := n } inputs m' m,
    performed_steady hio f { config with maxSteps := n } inputs m m', hcut]
  refine ⟨fun e he => ?_, fun hlimit => ?_, fun e he => ?_, ?_, htake, rfl,
    fun e => performed_of_ok⟩
  · rw [performed_of_ok he]
    exact ⟨fun hsteps => by rw [if_pos hsteps, he], fun hsteps => by rw [if_neg (by omega)]⟩
  · rw [hlimit]
    split
    · rename_i hfits
      rcases performed_of_limit hlimit with hall | hraises
      · rw [hall] at hfits
        have hsame : n = k := Nat.le_antisymm hle hfits
        exact .inl (hsame ▸ rfl)
      · exact .inr ⟨hraises, rfl⟩
    · exact .inl rfl
  · rw [he]
    split
    · exact .inl rfl
    · exact .inr rfl
  · rw [htake, List.length_take]
    exact Nat.min_le_left _ _

/-- Asks a bus once. -/
def ask : Routine where
  name := "ask"
  registers := []
  buses := [⟨"bus", some 0, [], []⟩]
  code := [[.call 0 [] [], .jmp 1], [.ret]]

theorem run_limit_exact_ask :
    (Boundary.ofFn fun _ _ => .ok (some [])).Steady ∧
    given (ask.run { maxSteps := 5 } (.ofFn fun _ _ => .ok (some [])) [] ()) =
      .ok ⟨.returned, [], 3, []⟩ ∧
    given (ask.run { maxSteps := 3 } (.ofFn fun _ _ => .ok (some [])) [] ()) =
      .ok ⟨.returned, [], 3, []⟩ ∧
    given (ask.run { maxSteps := 2 } (.ofFn fun _ _ => .ok (some [])) [] ()) =
    .error (.stepLimit 2) := by
  have hio : (Boundary.ofFn fun _ _ => .ok (some [])).Steady := fun _ _ _ _ => rfl
  have hrun : given (ask.run { maxSteps := 5 } (.ofFn fun _ _ => .ok (some [])) [] ()) =
      .ok ⟨.returned, [], 3, []⟩ := rfl
  have hthree := run_limit_exact hio ask {} [] () () (show 3 ≤ 5 by decide)
  have htwo := run_limit_exact hio ask {} [] () () (show 2 ≤ 5 by decide)
  exact ⟨hio, hrun, (hthree.1 _ hrun).1 (Nat.le_refl 3), (htwo.1 _ hrun).2 (by decide)⟩

/-- A machine that runs out of steps whenever it is asked. -/
def spinning : Machine where
  routines := [⟨"spin", [], [], [[.jmp 0]]⟩]
  config := { maxSteps := 5 }

/-- A boundary may answer with an exhausted limit of its own, as a machine does whose routine spins.
The run passes this on, whatever its own limit is. -/
theorem boundary_limit_passed_on :
    (Boundary.ofFn fun _ _ => .error (.stepLimit 5)).Steady ∧
    (¬ ∀ n k, n ≤ k →
      given (ask.run { maxSteps := k } (.ofFn fun _ _ => .error (.stepLimit 5)) [] ()) =
        .error (.stepLimit k) →
      given (ask.run { maxSteps := n } (.ofFn fun _ _ => .error (.stepLimit 5)) [] ()) =
        .error (.stepLimit n)) ∧
    given (ask.run { maxSteps := 5 } spinning.boundary [] []) = .error (.stepLimit 5) ∧
    given (ask.run { maxSteps := 3 } spinning.boundary [] []) = .error (.stepLimit 5) := by
  refine ⟨fun _ _ _ _ => rfl, fun h => ?_, rfl, rfl⟩
  have hthree := h 3 5 (by decide) rfl
  have hfive : given (ask.run { maxSteps := 3 } (.ofFn fun _ _ => .error (.stepLimit 5)) [] ()) =
      .error (.stepLimit 5) := rfl
  rw [hfive] at hthree
  cases hthree

end Routine

end LimbMachine
