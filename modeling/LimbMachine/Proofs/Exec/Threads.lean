import LimbMachine.Exec.Run
import LimbMachine.Proofs.Success

/-!
# Runs as sequences of microcodes

A run with a step limit is cut out of the sequence of threads that one microcode after the other
leads to. `Routine.Advances` is one microcode and `Routine.Reaches` a number of them; a thread that
is neither terminated nor able to advance `Aborts`. `Routine.resume_cases` says that a run is such a
sequence, up to its end, its limit or its error, so results about runs are results about `Reaches`.
-/

namespace LimbMachine.Routine

variable {σ : Type} {f : Routine} {trace : Bool} {io : Boundary σ} {t t₁ t₂ : Thread σ}
  {config : RunConfig} {e : RunError} {m : σ} {k n : Nat}

/-- The thread executes its next microcode. -/
structure Advances (f : Routine) (trace : Bool) (io : Boundary σ) (t t₁ : Thread σ) : Prop where
  running : t.frame.state.isTerminated = false
  executes : ∃ code step frame, f.fetch t.pc t.offset = some code ∧
    code.execute io t.frame = .ok step frame ∧ t₁ = (t.record trace frame).move step

/-- There is no next microcode, or it ends with an error. -/
structure Aborts (f : Routine) (io : Boundary σ) (t : Thread σ) (e : RunError) (m : σ) :
    Prop where
  running : t.frame.state.isTerminated = false
  cause : (f.fetch t.pc t.offset = none ∧ e = .invalidPc t.pc t.offset ∧ m = t.frame.memory) ∨
    ∃ code frame, f.fetch t.pc t.offset = some code ∧
    code.execute io t.frame = .error e frame ∧
      m = frame.memory

/-- The thread gets there by a number of microcodes. -/
inductive Reaches (f : Routine) (trace : Bool) (io : Boundary σ) :
    Nat → Thread σ → Thread σ → Prop
  | refl (t : Thread σ) : Reaches f trace io 0 t t
  | step {k : Nat} {t t₁ t₂ : Thread σ} (first : f.Advances trace io t t₁)
    (rest : Reaches f trace io k t₁ t₂) : Reaches f trace io (k + 1) t t₂

theorem fetch_eq_some_iff {pc offset : Nat} {code : Microcode} : f.fetch pc offset = some code ↔
    ∃ instruction, f.code[pc]? = some instruction ∧ instruction[offset]? = some code :=
  Option.bind_eq_some_iff

theorem Advances.unique (h₁ : f.Advances trace io t t₁) (h₂ : f.Advances trace io t t₂) :
    t₁ = t₂ := by
  obtain ⟨-, code, step, frame, hfetch, hexec, rfl⟩ := h₁
  obtain ⟨-, code', step', frame', hfetch', hexec', rfl⟩ := h₂
  rw [hfetch] at hfetch'
  cases hfetch'
  rw [hexec] at hexec'
  cases hexec'
  rfl

theorem Aborts.unique {e' : RunError} {m' : σ} (h₁ : f.Aborts io t e m)
    (h₂ : f.Aborts io t e' m') : e = e' ∧ m = m' := by
  obtain ⟨-, ⟨hnone, rfl, rfl⟩ | ⟨code, frame, hfetch, hexec, rfl⟩⟩ := h₁
  · obtain ⟨-, ⟨-, rfl, rfl⟩ | ⟨code, frame, hfetch, -, -⟩⟩ := h₂
    · exact ⟨rfl, rfl⟩
    · rw [hnone] at hfetch
      cases hfetch
  · obtain ⟨-, ⟨hnone, -, -⟩ | ⟨code', frame', hfetch', hexec', rfl⟩⟩ := h₂
    · rw [hnone] at hfetch
      cases hfetch
    · rw [hfetch] at hfetch'
      cases hfetch'
      rw [hexec] at hexec'
      cases hexec'
      exact ⟨rfl, rfl⟩

theorem Advances.not_aborts (h : f.Advances trace io t t₁) : ¬ f.Aborts io t e m := by
  obtain ⟨-, code, step, frame, hfetch, hexec, -⟩ := h
  rintro ⟨-, ⟨hnone, -, -⟩ | ⟨code', frame', hfetch', hexec', -⟩⟩
  · rw [hfetch] at hnone
    cases hnone
  · rw [hfetch] at hfetch'
    cases hfetch'
    rw [hexec] at hexec'
    cases hexec'

theorem Reaches.single (h : f.Advances trace io t t₁) : f.Reaches trace io 1 t t₁ :=
  .step h (.refl t₁)

theorem Reaches.trans (h₁ : f.Reaches trace io k t t₁) (h₂ : f.Reaches trace io n t₁ t₂) :
    f.Reaches trace io (k + n) t t₂ := by
  induction h₁ with
  | refl t => rwa [Nat.zero_add]
  | step first _ ih => exact Nat.add_right_comm _ 1 n ▸ .step first (ih h₂)

/-- What one microcode keeps, a run keeps. -/
theorem Reaches.invariant {I : Thread σ → Prop} (h : f.Reaches trace io k t t₁)
    (hstep : ∀ {t t₁}, I t → f.Advances trace io t t₁ → I t₁) (ht : I t) : I t₁ := by
  induction h with
  | refl t => exact ht
  | step first _ ih => exact ih (hstep ht first)

/-! ## Runs with a limit -/

theorem resume_terminated (h : t.frame.state.isTerminated = true) :
    f.resume config io n t = .ok t t.frame.memory := by
  unfold resume
  simp [h]

theorem resume_advances (h : f.Advances config.trace io t t₁) :
    f.resume config io (n + 1) t = f.resume config io n t₁ := by
  obtain ⟨hrun, code, step, frame, hfetch, hexec, rfl⟩ := h
  rw [resume]
  simp [hrun, hfetch, hexec]

theorem resume_advances_zero (h : f.Advances config.trace io t t₁) :
    f.resume config io 0 t = .error (.stepLimit config.maxSteps) t.frame.memory := by
  obtain ⟨hrun, code, step, frame, hfetch, -, -⟩ := h
  rw [resume]
  simp [hrun, hfetch]

theorem resume_aborts (h : f.Aborts io t e m) : f.resume config io (n + 1) t = .error e m := by
  obtain ⟨hrun, ⟨hfetch, rfl, rfl⟩ | ⟨code, frame, hfetch, hexec, rfl⟩⟩ := h
  · rw [resume]
    simp [hrun, hfetch]
  · rw [resume]
    simp [hrun, hfetch, hexec]

theorem Reaches.resume (h : f.Reaches config.trace io k t t₁) (n : Nat) :
    f.resume config io (k + n) t = f.resume config io n t₁ := by
  induction h with
  | refl t => rw [Nat.zero_add]
  | step first _ ih => rw [Nat.add_right_comm, resume_advances first, ih]

/-- A limit short of where the thread gets is hit. -/
theorem Reaches.resume_lt (h : f.Reaches config.trace io k t t₁) (hlt : n < k) :
    ∃ m, f.resume config io n t = .error (.stepLimit config.maxSteps) m := by
  induction h generalizing n with
  | refl t => omega
  | step first _ ih =>
    cases n with
    | zero => exact ⟨_, resume_advances_zero first⟩
    | succ n =>
      rw [resume_advances first]
      exact ih (by omega)

/-- A thread is terminated, advances or aborts. -/
theorem terminated_or_advances_or_aborts (f : Routine) (trace : Bool) (io : Boundary σ)
    (t : Thread σ) :
    t.frame.state.isTerminated = true ∨ (∃ t₁, f.Advances trace io t t₁) ∨
      ∃ e m, f.Aborts io t e m := by
  cases hrun : t.frame.state.isTerminated with
  | true => exact .inl rfl
  | false =>
    refine .inr ?_
    cases hfetch : f.fetch t.pc t.offset with
    | none => exact .inr ⟨_, _, hrun, .inl ⟨hfetch, rfl, rfl⟩⟩
    | some code =>
      cases hexec : code.execute io t.frame with
      | ok step frame => exact .inl ⟨_, hrun, code, step, frame, hfetch, hexec, rfl⟩
      | error e frame => exact .inr ⟨_, _, hrun, .inr ⟨code, frame, hfetch, hexec, rfl⟩⟩

/-- A run with a limit goes on to its end, to its limit or to an error. -/
theorem resume_cases (f : Routine) (config : RunConfig) (io : Boundary σ) (n : Nat)
    (t : Thread σ) :
    (∃ k t₁, k ≤ n ∧ f.Reaches config.trace io k t t₁ ∧
      t₁.frame.state.isTerminated = true ∧
        f.resume config io n t = .ok t₁ t₁.frame.memory) ∨
    (∃ t₁, f.Reaches config.trace io n t t₁ ∧
      f.resume config io n t = .error (.stepLimit config.maxSteps) t₁.frame.memory) ∨
    ∃ k t₁ e m, f.Reaches config.trace io k t t₁ ∧ f.Aborts io t₁ e m ∧
      f.resume config io n t = .error e m := by
  induction n generalizing t with
  | zero =>
    rcases terminated_or_advances_or_aborts f config.trace io t with h | ⟨t₁, h⟩ |
      ⟨e, m, h⟩
    · exact .inl ⟨0, t, Nat.le_refl 0, .refl t, h, resume_terminated h⟩
    · exact .inr (.inl ⟨t, .refl t, resume_advances_zero h⟩)
    · obtain ⟨hrun, ⟨hfetch, rfl, rfl⟩ | ⟨code, frame, hfetch, -, -⟩⟩ := h
      · refine .inr (.inr ⟨0, t, _, _, .refl t, ⟨hrun, .inl ⟨hfetch, rfl, rfl⟩⟩, ?_⟩)
        rw [resume]
        simp [hrun, hfetch]
      · refine .inr (.inl ⟨t, .refl t, ?_⟩)
        rw [resume]
        simp [hrun, hfetch]
  | succ n ih =>
    rcases terminated_or_advances_or_aborts f config.trace io t with h | ⟨t₁, h⟩ |
      ⟨e, m, h⟩
    · exact .inl ⟨0, t, Nat.zero_le _, .refl t, h, resume_terminated h⟩
    · rw [resume_advances h]
      rcases ih t₁ with ⟨k, t₂, hk, hr, hterm, heq⟩ | ⟨t₂, hr, heq⟩ |
        ⟨k, t₂, e, m, hr, ha, heq⟩
      · exact .inl ⟨k + 1, t₂, by omega, .step h hr, hterm, heq⟩
      · exact .inr (.inl ⟨t₂, .step h hr, heq⟩)
      · exact .inr (.inr ⟨k + 1, t₂, e, m, .step h hr, ha, heq⟩)
    · exact .inr (.inr ⟨0, t, e, m, .refl t, h, resume_aborts h⟩)

end LimbMachine.Routine
