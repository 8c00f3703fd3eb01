import LimbMachine.Proofs.Exec.Effect
import LimbMachine.Proofs.Exec.Threads
import LimbMachine.Proofs.Related

/-!
# One routine at two boundaries

A routine meets its boundary only through the answers it is given. So if two boundaries answer alike
in memories that are in relation, a run at one of them and the run at the other give the same
execution or the same error, and leave memories in relation (`Routine.run_alike`).

Boundaries may be allowed to differ by errors that are excused. An excused error ends its run and
says nothing about the other one. A `Boundary.Steady` boundary answers alike in all memories, so
that what was asked before does not matter.
-/

namespace LimbMachine

/-! ## Microcodes -/

namespace Frame

variable {σ τ α : Type} {left right : RunError → Prop} {R : σ → τ → Prop}
    {m : σ} {m' : τ}
  {s : State}

/-- The same state of the routine, with memories in relation. -/
def Joins (R : σ → τ → Prop) (frame : Frame σ) (frame' : Frame τ) : Prop :=
  frame.state = frame'.state ∧ R frame.memory frame'.memory

theorem alike_onState (x : Update α) (h : R m m') :
    Alike left right (Joins R) (onState x ⟨s, m⟩) (onState x ⟨s, m'⟩) := by
  refine same_onState ?_
  cases x s with
  | ok a s₁ => exact .ok ⟨rfl, h⟩
  | error e s₁ => exact .error ⟨rfl, h⟩

theorem alike_transact {io : Boundary σ} {io' : Boundary τ} {bus : Nat}
    {address data : List RegId} (h : Alike left right R (io.read bus (address.map s.load) m)
      (io'.read bus (address.map s.load) m')) :
    Alike left right (Joins R) (transact io bus address data ⟨s, m⟩)
      (transact io' bus address data ⟨s, m'⟩) := by
  refine same_transact (A := Joins R) rfl
    (h.imp (fun _ _ hm => ⟨rfl, hm⟩) fun _ _ _ hm => ⟨rfl, hm⟩)
    (fun _ _ hjoins => hjoins) (fun _ _ hjoins => hjoins) ?_
  rintro response ⟨s₁, m₁⟩ ⟨_, m₁'⟩ - ⟨rfl, hm⟩
  exact alike_onState _ hm

end Frame

/-- A microcode is executed alike where its request, if it makes one, is answered alike. -/
theorem Microcode.execute_alike {σ τ : Type} {left right : RunError → Prop}
    {R : σ → τ → Prop} {io : Boundary σ} {io' : Boundary τ} {m : σ} {m' : τ} {s : State}
    {code : Microcode} (hread : ∀ bus targets sources, code = .call bus targets sources →
      Alike left right R (io.read bus (sources.map s.load) m)
        (io'.read bus (sources.map s.load) m'))
    (hm : code.isLocal = true → R m m') :
    Alike left right (Frame.Joins R) (code.execute io ⟨s, m⟩) (code.execute io'
      ⟨s, m'⟩) := by
  have hstore : R m m' → ∀ x : Update Unit, Alike left right (Frame.Joins R)
      ((Frame.onState x >>= fun _ => pure (Step.skip 1)) ⟨s, m⟩)
      ((Frame.onState x >>= fun _ => pure (Step.skip 1)) ⟨s, m'⟩) :=
    fun hm x => (Frame.alike_onState x hm).bind fun _ _ _ hjoins => .ok hjoins
  have hstay : R m m' → ∀ step : Step, Alike left right (Frame.Joins R)
      ((pure step : Exec σ Step) ⟨s, m⟩) ((pure step : Exec τ Step) ⟨s, m'⟩) :=
    fun hm step => .ok ⟨rfl, hm⟩
  unfold execute
  rw [estate_get_bind, estate_get_bind]
  cases code with
  | assign targets rhs => exact hstore (hm rfl) _
  | add targets sources constant => exact hstore (hm rfl) _
  | sub targets sources constant => exact hstore (hm rfl) _
  | mul targets sources constant => exact hstore (hm rfl) _
  | cast targets source width =>
    by_cases hfail : width < bitLength (s.load source)
    · simp only [hfail, if_true]
      exact hstay (hm rfl) .fail
    · simp only [hfail, if_false]
      exact hstore (hm rfl) _
  | div quotient remainder witness dividend divisor =>
    by_cases hzero : s.load divisor = 0
    · simp only [hzero, if_true]
      exact hstay (hm rfl) .fail
    · simp only [hzero, if_false]
      exact hstore (hm rfl) _
  | skip left right constant distance => exact hstay (hm rfl) _
  | skipIf left right constant distance => exact hstay (hm rfl) _
  | call bus targets sources =>
    refine (Frame.alike_transact (hread bus targets sources rfl)).bind fun answered _ _ hjoins => ?_
    cases answered with
    | true => exact .ok hjoins
    | false => exact .ok hjoins
  | jmp target => exact hstay (hm rfl) _
  | ret => exact hstay (hm rfl) _
  | fail => exact hstay (hm rfl) _

/-! ## Runs -/

/-- The same thread with another memory at its boundary. -/
def Thread.withMemory {σ τ : Type} (t : Thread σ) (m : τ) : Thread τ :=
  { frame := ⟨t.frame.state, m⟩, offset := t.offset, steps := t.steps, trace := t.trace }

namespace Routine

variable {σ τ : Type} {left right : RunError → Prop} {R : σ → τ → Prop} {io : Boundary σ}
  {io' : Boundary τ} {f : Routine} {config : RunConfig} {trace : Bool} {fuel : Nat}

theorem move_withMemory (t : Thread σ) (s : State) (m : σ) (m₁ m' : τ) (step : Step) :
    ((t.record trace ⟨s, m⟩).move step).withMemory m' =
      ((t.withMemory m₁).record trace ⟨s, m'⟩).move step := by
  cases step <;> rfl

/-- What a run makes of where its thread got. -/
def finish (f : Routine) :
    EStateM.Result RunError σ (Thread σ) → EStateM.Result RunError σ Execution
  | .ok t m => .ok (f.conclude t) m
  | .error e m => .error e m

theorem run_eq_finish {inputs : List Nat} {s : State} {m : σ} (h : f.start inputs = .ok s) :
    f.run config io inputs m =
      f.finish (f.resume config io config.maxSteps { frame := ⟨s, m⟩ }) := by
  unfold run
  rw [h]
  rfl

/-- A thread that is over, has no microcode to execute or may not execute one ends in the same way
with any memory. -/
theorem resume_stopped {t : Thread σ} (h : t.frame.state.isTerminated = true ∨
      f.fetch t.pc t.offset = none ∨ fuel = 0) {m' : τ} (hm : R t.frame.memory m') :
    Alike left right R (f.finish (f.resume config io fuel t))
      (f.finish (f.resume config io' fuel (t.withMemory m'))) := by
  have hsame : (t.withMemory m').frame.state.isTerminated = t.frame.state.isTerminated := rfl
  have hfetch' : f.fetch (t.withMemory m').pc (t.withMemory m').offset = f.fetch t.pc t.offset :=
    rfl
  unfold resume
  rw [hsame, hfetch']
  cases hrun : t.frame.state.isTerminated with
  | true => exact .ok hm
  | false =>
    cases hfetch : f.fetch t.pc t.offset with
    | none => exact .error hm
    | some code =>
      obtain rfl : fuel = 0 := by simpa [hrun, hfetch] using h
      exact .error hm

theorem resume_alike (hread : ∀ bus address m m', R m m' →
      Alike left right R (io.read bus address m) (io'.read bus address m'))
    (fuel : Nat) (t : Thread σ) {m' : τ} (hm : R t.frame.memory m') :
    Alike left right R (f.finish (f.resume config io fuel t))
      (f.finish (f.resume config io' fuel (t.withMemory m'))) := by
  induction fuel generalizing t m' with
  | zero => exact resume_stopped (.inr (.inr rfl)) hm
  | succ fuel ih =>
    cases hrun : t.frame.state.isTerminated with
    | true => exact resume_stopped (.inl hrun) hm
    | false =>
      cases hfetch : f.fetch t.pc t.offset with
      | none => exact resume_stopped (.inr (.inl hfetch)) hm
      | some code =>
        have hexec : Alike left right (Frame.Joins R) (code.execute io t.frame)
            (code.execute io' ⟨t.frame.state, m'⟩) :=
          Microcode.execute_alike (fun bus _ _ _ => hread bus _ _ _ hm) fun _ => hm
        generalize hx : code.execute io t.frame = x at hexec
        generalize hx' : code.execute io' ⟨t.frame.state, m'⟩ = x' at hexec
        cases hexec with
        | @ok step frame step' frame' h =>
          obtain ⟨s₁, m₁⟩ := frame
          obtain ⟨_, m₁'⟩ := frame'
          obtain ⟨rfl, rfl, hm₁⟩ := h
          have hadv :
              f.Advances config.trace io t ((t.record config.trace ⟨s₁, m₁⟩).move step) :=
            ⟨hrun, code, step, _, hfetch, hx, rfl⟩
          have hadv' : f.Advances config.trace io' (t.withMemory m')
              (((t.record config.trace ⟨s₁, m₁⟩).move step).withMemory m₁') :=
            ⟨hrun, code, step, _, hfetch, hx', move_withMemory t s₁ m₁ m' m₁' step⟩
          rw [resume_advances hadv, resume_advances hadv']
          exact ih _ (by cases step <;> exact hm₁)
        | both h hjoins =>
          rw [resume_aborts ⟨hrun, .inr ⟨code, _, hfetch, hx, rfl⟩⟩,
            resume_aborts (t := t.withMemory m') ⟨hrun, .inr ⟨code, _, hfetch, hx', rfl⟩⟩]
          exact .both h hjoins.2
        | left h =>
          rw [resume_aborts ⟨hrun, .inr ⟨code, _, hfetch, hx, rfl⟩⟩]
          exact .left h
        | right h =>
          rw [resume_aborts (t := t.withMemory m') ⟨hrun, .inr ⟨code, _, hfetch, hx', rfl⟩⟩]
          exact .right h

/-- A routine runs alike at boundaries that answer alike. -/
theorem run_alike (hread : ∀ bus address m m', R m m' →
      Alike left right R (io.read bus address m) (io'.read bus address m'))
    (config : RunConfig) (inputs : List Nat) {m : σ} {m' : τ} (hm : R m m') :
    Alike left right R (f.run config io inputs m) (f.run config io' inputs m') := by
  cases hstart : f.start inputs with
  | error e =>
    unfold run
    rw [hstart]
    exact .error hm
  | ok s =>
    rw [run_eq_finish hstart, run_eq_finish hstart]
    exact resume_alike hread config.maxSteps { frame := ⟨s, m⟩ } hm

end Routine

/-! ## Steady boundaries -/

/-- What the boundary answers does not depend on its memory, and so not on what was asked before. -/
def Boundary.Steady {σ : Type} (io : Boundary σ) : Prop :=
  ∀ bus address m m', given (io.read bus address m) = given (io.read bus address m')

section Steady

variable {σ : Type} {io : Boundary σ}

theorem Boundary.Steady.alike (hio : io.Steady) (bus : Nat) (address : List Nat) (m m' : σ) :
    Alike (fun _ => False) (fun _ => False) (fun _ _ => True) (io.read bus address m)
      (io.read bus address m') := by
  have hsame := hio bus address m m'
  cases h : io.read bus address m with
  | ok answer m₁ =>
    cases h' : io.read bus address m' with
    | ok answer' m₁' =>
      rw [h, h'] at hsame
      cases hsame
      exact .ok trivial
    | error e m₁' =>
      rw [h, h'] at hsame
      cases hsame
  | error e m₁ =>
    cases h' : io.read bus address m' with
    | ok answer' m₁' =>
      rw [h, h'] at hsame
      cases hsame
    | error e' m₁' =>
      rw [h, h'] at hsame
      cases hsame
      exact .error trivial

/-- A microcode does the same with any memory at a steady boundary. -/
theorem Microcode.execute_steady (hio : io.Steady) {code : Microcode} {step : Step} {s s₁ : State}
    {m m₁ : σ} (h : code.execute io ⟨s, m⟩ = .ok step ⟨s₁, m₁⟩) (m' : σ) :
    ∃ m₁', code.execute io ⟨s, m'⟩ = .ok step ⟨s₁, m₁'⟩ := by
  have halike : Alike (fun _ => False) (fun _ => False) (Frame.Joins fun _ _ => True)
      (code.execute io ⟨s, m⟩) (code.execute io ⟨s, m'⟩) :=
    execute_alike (fun bus _ _ _ => hio.alike bus _ m m') fun _ => trivial
  rw [h] at halike
  generalize code.execute io ⟨s, m'⟩ = x at halike ⊢
  cases halike with
  | @ok _ _ _ frame' h =>
    obtain ⟨_, m₁'⟩ := frame'
    obtain ⟨rfl, rfl, -⟩ := h
    exact ⟨m₁', rfl⟩
  | right h => exact h.elim

theorem Routine.Advances.steady {f : Routine} {trace : Bool} {t t₁ : Thread σ} (hio : io.Steady)
    (h : f.Advances trace io t t₁) (m' : σ) :
    ∃ m₁', f.Advances trace io (t.withMemory m') (t₁.withMemory m₁') := by
  obtain ⟨hrun, code, step, ⟨s₁, m₁⟩, hfetch, hexec, rfl⟩ := h
  obtain ⟨m₁', hexec'⟩ := Microcode.execute_steady hio hexec m'
  exact ⟨m₁', hrun, code, step, _, hfetch, hexec',
    Routine.move_withMemory t s₁ m₁ m' m₁' step⟩

theorem Routine.run_steady (hio : io.Steady) (f : Routine) (config : RunConfig) (inputs : List Nat)
    (m m' : σ) : given (f.run config io inputs m) = given (f.run config io inputs m') := by
  have halike : Alike (fun _ => False) (fun _ => False) (fun _ _ => True) (f.run config io inputs m)
      (f.run config io inputs m') :=
    run_alike (fun bus address m m' _ => hio.alike bus address m m') config inputs trivial
  exact halike.given_eq

end Steady

/-! ## Repeating a run -/

/-- The memory that a microcode leaves is the one that the answer to its request leaves, if it makes
one. -/
theorem Microcode.execute_memory {σ : Type} {io : Boundary σ} {m : σ} {s : State}
    {code : Microcode} {step : Step} {frame : Frame σ}
    (h : code.execute io ⟨s, m⟩ = .ok step frame) :
    (code.isLocal = true ∧ frame.memory = m) ∨
      ∃ bus targets sources answer, code = .call bus targets sources ∧
        io.read bus (sources.map s.load) m = .ok answer frame.memory := by
  -- the microcode is executed like itself, which leaves a memory that is known
  have hself : ∀ m₁, (∀ bus targets sources, code = .call bus targets sources →
      ∃ answer, io.read bus (sources.map s.load) m = .ok answer m₁) →
      (code.isLocal = true → m = m₁) → frame.memory = m₁ := by
    intro m₁ hcall hlocal
    have halike : Alike (fun _ => False) (fun _ => False) (Frame.Joins fun a _ => a = m₁)
        (code.execute io ⟨s, m⟩) (code.execute io ⟨s, m⟩) := by
      refine execute_alike (fun bus targets sources hcode => ?_) hlocal
      obtain ⟨answer, hread⟩ := hcall bus targets sources hcode
      rw [hread]
      exact .ok rfl
    rw [h] at halike
    exact (halike.related rfl).2
  cases hlocal : code.isLocal with
  | true =>
    refine .inl ⟨rfl, hself m (fun bus targets sources hcode => ?_) fun _ => rfl⟩
    rw [hcode] at hlocal
    cases hlocal
  | false =>
    cases code with
    | call bus targets sources =>
      cases hread : io.read bus (sources.map s.load) m with
      | error e m₁ =>
        rw [execute_call_error hread] at h
        cases h
      | ok answer m₁ =>
        have hmem :=
          hself m₁ (fun bus' targets' sources' hcode => by cases hcode; exact ⟨answer, hread⟩)
          fun hlocal => nomatch hlocal
        exact .inr ⟨bus, targets, sources, answer, rfl, hmem ▸ hread⟩
    | _ => cases hlocal

section Replay

variable {σ τ : Type} {io : Boundary σ} {io' : Boundary τ}

/-- A microcode does the same again where the same answer is given. -/
theorem Microcode.execute_again {m m₁ : σ} {m' : τ} {s s₁ : State} {code : Microcode}
    {step : Step} (h : code.execute io ⟨s, m⟩ = .ok step ⟨s₁, m₁⟩)
    (hread : ∀ bus targets sources, code = .call bus targets sources → ∃ answer m₂,
      io.read bus (sources.map s.load) m = .ok answer m₂ ∧
        io'.read bus (sources.map s.load) m' = .ok answer m') :
    code.execute io' ⟨s, m'⟩ = .ok step ⟨s₁, m'⟩ := by
  have halike : Alike (fun _ => False) (fun _ => False) (Frame.Joins fun _ b => b = m')
      (code.execute io ⟨s, m⟩) (code.execute io' ⟨s, m'⟩) := by
    refine execute_alike (fun bus targets sources hcode => ?_) fun _ => rfl
    obtain ⟨answer, m₂, hanswer, hanswer'⟩ := hread bus targets sources hcode
    rw [hanswer, hanswer']
    exact .ok rfl
  rw [h] at halike
  generalize code.execute io' ⟨s, m'⟩ = x at halike ⊢
  cases halike with
  | @ok _ _ _ frame' h =>
    obtain ⟨_, m₁'⟩ := frame'
    obtain ⟨rfl, rfl, rfl⟩ := h
    rfl
  | right h => exact h.elim

/-- Whatever is answered at `io` is answered again at `io'` in the memory `m'`, once the memory that
the answer left is below `m'`. Memories only grow, so those before it are then below `m'` too. -/
def Boundary.Repeats (io : Boundary σ) (io' : Boundary τ) (Inv Below : σ → Prop) (m' : τ) :
    Prop :=
  ∀ bus address m answer m₁, Inv m → io.read bus address m = .ok answer m₁ →
    Inv m₁ ∧ (Below m₁ → Below m ∧ io'.read bus address m' = .ok answer m')

namespace Routine

variable {f : Routine} {config : RunConfig} {trace : Bool} {t t₁ : Thread σ}
    {Inv Below : σ → Prop}
  {m' : τ}

theorem Advances.replay (hio : io.Repeats io' Inv Below m') (ht : Inv t.frame.memory)
    (h : f.Advances trace io t t₁) : Inv t₁.frame.memory ∧ (Below t₁.frame.memory →
      Below t.frame.memory ∧ f.Advances trace io' (t.withMemory m') (t₁.withMemory m')) := by
  obtain ⟨hrun, code, step, ⟨s₁, m₁⟩, hfetch, hexec, rfl⟩ := h
  have hmemory : ((t.record trace ⟨s₁, m₁⟩).move step).frame.memory = m₁ := by
    cases step <;> rfl
  have hadvances : code.execute io' ⟨t.frame.state, m'⟩ = .ok step ⟨s₁, m'⟩ →
      f.Advances trace io' (t.withMemory m')
      (((t.record trace ⟨s₁, m₁⟩).move step).withMemory m') :=
    fun hexec' => ⟨hrun, code, step, _, hfetch, hexec', move_withMemory t s₁ m₁ m' m' step⟩
  rw [hmemory]
  rcases Microcode.execute_memory hexec with ⟨hlocal, hsame⟩ |
    ⟨bus, targets, sources, answer, rfl, hanswer⟩
  · have hsame : m₁ = t.frame.memory := hsame
    refine ⟨hsame ▸ ht, fun hbelow => ⟨hsame ▸ hbelow, hadvances ?_⟩⟩
    refine Microcode.execute_again hexec fun bus targets sources hcode => ?_
    rw [hcode] at hlocal
    cases hlocal
  · obtain ⟨hinv, hrepeat⟩ := hio bus _ _ answer m₁ ht hanswer
    refine ⟨hinv, fun hbelow => ?_⟩
    obtain ⟨hbefore, hanswer'⟩ := hrepeat hbelow
    refine ⟨hbefore,
      hadvances (Microcode.execute_again hexec fun bus' targets' sources' hcode => ?_)⟩
    cases hcode
    exact ⟨answer, m₁, hanswer, hanswer'⟩

theorem Reaches.replay {k : Nat} (hio : io.Repeats io' Inv Below m')
    (h : f.Reaches trace io k t t₁) (ht : Inv t.frame.memory) (hbelow : Below t₁.frame.memory) :
    Below t.frame.memory ∧ f.Reaches trace io' k (t.withMemory m') (t₁.withMemory m') := by
  induction h with
  | refl t => exact ⟨hbelow, .refl _⟩
  | step first _ ih =>
    obtain ⟨hinv, hstep⟩ := first.replay hio ht
    obtain ⟨hmid, hrest⟩ := ih hinv hbelow
    obtain ⟨hstart, hfirst⟩ := hstep hmid
    exact ⟨hstart, .step hfirst hrest⟩

/-- A run can be repeated at a boundary that gives, in one fixed memory, all the answers that were
given on the way. -/
theorem run_replay {inputs : List Nat} {m m₁ : σ} {execution : Execution}
    (hio : io.Repeats io' Inv Below m') (h : f.run config io inputs m = .ok execution m₁)
    (hm : Inv m) (hbelow : Below m₁) : f.run config io' inputs m' = .ok execution m' := by
  cases hstart : f.start inputs with
  | error e =>
    unfold run at h
    rw [hstart] at h
    cases h
  | ok s =>
    rw [run_eq_finish hstart] at h ⊢
    rcases resume_cases f config io config.maxSteps { frame := ⟨s, m⟩ } with
      ⟨k, t₁, hk, hreach, hterm, heq⟩ | ⟨t₁, -, heq⟩ | ⟨k, t₁, e, m₂, -, -, heq⟩
    · rw [heq] at h
      cases h
      have hagain := (hreach.replay hio hm hbelow).2.resume (config.maxSteps - k)
      have hterm' : (t₁.withMemory m').frame.state.isTerminated = true := hterm
      rw [Nat.add_sub_cancel' hk, resume_terminated hterm'] at hagain
      exact congrArg f.finish hagain
    · rw [heq] at h
      cases h
    · rw [heq] at h
      cases h

end Routine

end Replay

end LimbMachine
