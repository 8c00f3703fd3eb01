import LimbMachine.Machine
import LimbMachine.Proofs.Split.Interface

/-!
# Splitting keeps what a machine computes

The routines of a machine are split one by one, and their calls to each other go over to limbs. Both
machines keep answers to nested calls in a cache; the caches say the same thing about every call on
inputs that fit (`Cache.Mirrors`), since such inputs are told apart by their limbs. A nested call is
answered alike where calls may still be nested equally deep (`Machine.SplitsTo.answer_relates`), by
induction on that depth, and so is a call from outside (`Machine.split_call`).
-/

namespace LimbMachine

/-! ## Runs with a limit -/

/-- The executions end the same way, and outputs fit and go over to their limbs. -/
structure SplitRoutine.Matches (split : SplitRoutine) (f : Routine) (e e' : Execution) : Prop where
  outcome_eq : e'.outcome = e.outcome
  fits : e.outcome = .returned → Digits.Fit (f.registers.widths f.outputIds) e.outputs
  outputs_eq : e.outcome = .returned →
    e'.outputs = splitLines split.pool.width (f.registers.widths f.outputIds) e.outputs

theorem SplitRoutine.Matches.answers {σ σ' : Type} {split : SplitRoutine} {f : Routine}
    {e e' : Execution} {R : σ → σ' → Prop} {m : σ} {m' : σ'} (h : split.Matches f e e')
    (hm : R m m') :
    Answers split.pool.width (f.registers.widths f.outputIds) R e.answer m e'.answer m' := by
  refine ⟨hm, ?_, fun vs hvs => ?_⟩
  · cases hret : e.outcome with
    | returned =>
      simp [Execution.answer, Execution.isReturned, h.outcome_eq, hret, h.outputs_eq hret]
    | failed => simp [Execution.answer, Execution.isReturned, h.outcome_eq, hret]
  · cases hret : e.outcome with
    | returned =>
      simp only [Execution.answer, Execution.isReturned, hret, beq_self_eq_true, if_true,
        Option.some.injEq] at hvs
      exact hvs ▸ h.fits hret
    | failed => simp [Execution.answer, Execution.isReturned, hret] at hvs

/-- A run with a limit on inputs, and one on their limbs. -/
theorem Routine.WellFormed.run_relates {σ σ' : Type} {f : Routine} {field : FieldParams}
    {split : SplitRoutine} {faults : Faults} {R : σ → σ' → Prop} {io : Boundary σ}
    {io' : Boundary σ'} {inputs : List Nat} {m : σ} {m' : σ'} (hf : f.WellFormed field)
    (config : RunConfig) (hsplit : split.Of f)
    (haddr : ∀ i ∈ split.routine.code, i.length < Word.modulus)
    (hleft : faults.left (.stepLimit config.maxSteps))
    (hright : faults.right (.stepLimit config.maxSteps))
    (hio : io.Splits io' f split.pool.width R faults) (hin : f.Accepts inputs) (hm : R m m') :
    faults.Relates (fun e m₁ e' m₁' => R m₁ m₁' ∧
      split.Matches f e e') (f.run config io inputs m) (split.routine.run config io'
        (splitLines split.pool.width (f.registers.widths f.inputIds) inputs) m') := by
  obtain ⟨s, s', hstart, hstart', hmirrors⟩ :=
    hf.start_mirrors hsplit hin config.trace hm
  have hresume := hmirrors.resume hleft hright hf hsplit haddr hio config.maxSteps config.maxSteps
  unfold run
  rw [hstart, hstart']
  simp only
  generalize f.resume config io config.maxSteps { frame := ⟨s, m⟩ } = x at hresume ⊢
  generalize split.routine.resume config io' config.maxSteps { frame := ⟨s', m'⟩ } =
    y at hresume ⊢
  cases hresume with
  | ok h =>
    obtain ⟨hmirrors₁, rfl, rfl, -⟩ := h
    apply Related.ok
    exact ⟨hmirrors₁.memory, hmirrors₁.outcome_eq,
      fun hret => (hmirrors₁.outputs_eq hsplit hret).1,
        fun hret => (hmirrors₁.outputs_eq hsplit hret).2⟩
  | both h hm => exact .both h hm
  | left h => exact .left h
  | right h => exact .right h

/-! ## Caches -/

namespace Cache

theorem find?_filter {cache : Cache} {call call' : Call} (hne : call' ≠ call) :
    (cache.filter fun entry => entry.1 ≠ call).lookup call' = cache.lookup call' := by
  induction cache with
  | nil => rfl
  | cons entry cache ih =>
    obtain ⟨key, answer⟩ := entry
    by_cases hkey : key = call
    · have hskip : (call' == key) = false := by simpa [hkey] using hne
      rw [List.filter_cons_of_neg (by simp [hkey]), ih, List.lookup_cons, hskip]
    · rw [List.filter_cons_of_pos (by simp [hkey]), List.lookup_cons, List.lookup_cons, ih]

/-- Setting an answer changes that answer only. -/
theorem find?_insert (cache : Cache) (call call' : Call) (answer : Option (List Nat)) :
    (cache.insert call answer).find? call' =
      if call' = call then some answer else cache.find? call' := by
  by_cases heq : call' = call
  · subst heq
    unfold insert find?
    split <;> simp
  · have hskip : (call' == call) = false := by simpa using heq
    rw [if_neg heq]
    unfold insert find?
    split
    · rw [List.lookup_cons, hskip]
      exact find?_filter heq
    · rw [List.lookup_cons, hskip]

/-- The caches say the same about every call on inputs that fit, one of them limb by limb. -/
def Mirrors (m : Machine) (width : Nat) (cache cache' : Cache) : Prop :=
  ∀ id f, m.routines[id]? = some f → ∀ inputs, f.Accepts inputs →
    cache'.find? ⟨id, splitLines width (f.registers.widths f.inputIds) inputs⟩ =
      (cache.find? ⟨id, inputs⟩).map
        (Option.map (splitLines width (f.registers.widths f.outputIds))) ∧
    ∀ vs, cache.find? ⟨id, inputs⟩ = some (some vs) →
      Digits.Fit (f.registers.widths f.outputIds) vs

variable {m : Machine} {width id : Nat} {cache cache' : Cache} {f : Routine} {inputs : List Nat}
  {answer : Option (List Nat)}

theorem mirrors_nil (m : Machine) (width : Nat) : Mirrors m width [] [] :=
  fun _ _ _ _ _ => ⟨rfl, fun _ h => by cases h⟩

/-- The answer to a call may be set in both caches. -/
theorem Mirrors.insert (h : Mirrors m width cache cache') (hwidth : 0 < width)
    (hf : m.routines[id]? = some f) (hin : f.Accepts inputs)
    (hfit : ∀ vs, answer = some vs → Digits.Fit (f.registers.widths f.outputIds) vs) :
    Mirrors m width (cache.insert ⟨id, inputs⟩ answer)
      (cache'.insert ⟨id, splitLines width (f.registers.widths f.inputIds) inputs⟩
        (answer.map (splitLines width (f.registers.widths f.outputIds)))) := by
  intro id₁ f₁ hf₁ inputs₁ hin₁
  rw [find?_insert, find?_insert]
  by_cases hid : id₁ = id
  · subst hid
    obtain rfl : f₁ = f := by
      rw [hf] at hf₁
      exact (Option.some.inj hf₁).symm
    -- calls of one routine are told apart by the limbs of their inputs
    have hsame : splitLines width (f₁.registers.widths f₁.inputIds) inputs₁ =
        splitLines width (f₁.registers.widths f₁.inputIds) inputs ↔ inputs₁ = inputs :=
      splitLines_inj hwidth hin₁.fit hin.fit
    by_cases heq : inputs₁ = inputs
    · subst heq
      rw [if_pos rfl, if_pos rfl]
      exact ⟨rfl, fun vs hvs => hfit vs (Option.some.inj hvs)⟩
    · rw [if_neg fun hcall => heq (hsame.1 (Call.mk.inj hcall).2),
        if_neg fun hcall => heq (Call.mk.inj hcall).2]
      exact h id₁ f₁ hf₁ inputs₁ hin₁
  · rw [if_neg (by simp [hid]), if_neg (by simp [hid])]
    exact h id₁ f₁ hf₁ inputs₁ hin₁

end Cache

/-! ## Machines -/

namespace Machine

/-- Every call asks a routine of the machine, with lines as wide as its inputs and outputs. -/
def Linked (m : Machine) : Prop :=
  ∀ f ∈ m.routines, ∀ instruction ∈ f.code, ∀ bus targets sources,
    Microcode.call bus targets sources ∈ instruction → ∃ g, m.routines[bus]? = some g ∧
      f.registers.widths sources = g.inputs.map Register.width ∧
      f.registers.widths targets = g.outputs.map Register.width

/-- A linked machine of accepted routines and its split form. -/
structure SplitsTo (m : Machine) (field : FieldParams) (m' : Machine) : Prop where
  split_eq : m.split field = .ok m'
  wellFormed : ∀ f ∈ m.routines, f.WellFormed .unbounded
  linked : m.Linked
  addressed : ∀ f ∈ m'.routines, ∀ instruction ∈ f.code, instruction.length < Word.modulus

/-- Both machines may run out of depth together, and each of them out of steps alone. -/
def faults (m : Machine) : Faults where
  both e e' := e = .callDepth m.config.maxDepth ∧ e' = .callDepth m.config.maxDepth
  left e := e = .stepLimit m.config.maxSteps
  right e := e = .stepLimit m.config.maxSteps

variable {m m' : Machine} {field : FieldParams} {id : Nat} {f : Routine} {inputs : List Nat}
  {cache cache' : Cache}

theorem split_config (h : m.split field = .ok m') : m'.config = m.config := by
  obtain ⟨routines, -, h⟩ := except_bind_ok.1 h
  cases h
  rfl

theorem split_getElem? (h : m.split field = .ok m') (hf : m.routines[id]? = some f) :
    ∃ split, f.splitWithLimbs field = .ok split ∧ m'.routines[id]? = some split.routine := by
  obtain ⟨routines, hroutines, h⟩ := except_bind_ok.1 h
  cases h
  obtain ⟨hi, rfl⟩ := List.getElem?_eq_some_iff.1 hf
  obtain ⟨hlen, hall⟩ := List.forall₂_iff_get.1 (except_mapM_ok.1 hroutines)
  have hi' : id < routines.length := hlen ▸ hi
  obtain ⟨split, hsplit, heq⟩ := except_map_ok.1 (except_mapError_ok.1 (hall id hi hi'))
  exact ⟨split, hsplit, (List.getElem?_eq_getElem hi').trans (congrArg some heq.symm)⟩

/-- Answers from the caches, or from evaluations that are related, are related. -/
theorem serve_relates {f' : Routine} {width : Nat} (hwidth : 0 < width)
    (hf : m.routines[id]? = some f) (hf' : m'.routines[id]? = some f') (hin : f.Accepts inputs)
    {evaluate evaluate' : Routine → List Nat → EStateM RunError Cache (Option (List Nat))}
    (heval : m.faults.Relates
      (Answers width (f.registers.widths f.outputIds) (Cache.Mirrors m width))
      (evaluate f inputs cache)
      (evaluate' f' (splitLines width (f.registers.widths f.inputIds) inputs) cache'))
    (hcache : Cache.Mirrors m width cache cache') :
    m.faults.Relates (Answers width (f.registers.widths f.outputIds) (Cache.Mirrors m width))
      (m.serve evaluate id inputs cache)
      (m'.serve evaluate' id (splitLines width (f.registers.widths f.inputIds) inputs) cache') := by
  obtain ⟨hfind, hfits⟩ := hcache id f hf inputs hin
  unfold serve
  rw [hf, hf']
  simp only [hfind]
  cases hhit : cache.find? ⟨id, inputs⟩ with
  | some answer =>
    apply Related.ok
    exact ⟨hcache, rfl, fun vs hvs => hfits vs (hvs ▸ hhit)⟩
  | none =>
    simp only [Option.map_none]
    generalize evaluate f inputs cache = x at heval ⊢
    generalize evaluate' f' (splitLines width (f.registers.widths f.inputIds) inputs) cache' = y
      at heval ⊢
    cases heval with
    | ok h =>
      obtain ⟨hcache₁, rfl, hfit⟩ := h
      apply Related.ok
      exact ⟨hcache₁.insert hwidth hf hin hfit, rfl, hfit⟩
    | both h hm => exact .both h hm
    | left h => exact .left h
    | right h => exact .right h

namespace SplitsTo

/-- What is known about a routine of the machine and its split form. -/
theorem routine (hm : m.SplitsTo field m') (hf : m.routines[id]? = some f) :
    ∃ split, f.splitWithLimbs field = .ok split ∧ m'.routines[id]? = some split.routine ∧
      f.WellFormed .unbounded ∧ split.Of f ∧ split.pool.width = max field.registerWidth 1 ∧
      ∀ instruction ∈ split.routine.code, instruction.length < Word.modulus := by
  obtain ⟨split, hsplit, hf'⟩ := split_getElem? hm.split_eq hf
  have hwf := hm.wellFormed f (List.mem_of_getElem? hf)
  exact ⟨split, hsplit, hf', hwf, Routine.splitOf hsplit, Routine.split_width hsplit,
    hm.addressed _ (List.mem_of_getElem? hf')⟩

/-- A routine of the machine is answered by the routines it is linked to. -/
theorem boundary_splits (hm : m.SplitsTo field m') (hf : m.routines[id]? = some f)
    {read read' : Nat → List Nat → EStateM RunError Cache (Option (List Nat))} {width : Nat}
    (hread : ∀ id g, m.routines[id]? = some g → ∀ inputs, g.Accepts inputs →
      ∀ cache cache', Cache.Mirrors m width cache cache' →
        m.faults.Relates (Answers width (g.registers.widths g.outputIds) (Cache.Mirrors m width))
          (read id inputs cache)
          (read' id (splitLines width (g.registers.widths g.inputIds) inputs) cache')) :
    (attach read).Splits (attach read') f width (Cache.Mirrors m width) m.faults := by
  intro instruction hi bus targets sources hc address cache cache' hfit hcache
  obtain ⟨g, hg, hsources, htargets⟩ :=
    hm.linked f (List.mem_of_getElem? hf) instruction hi bus targets sources hc
  rw [← g.widths_inputIds] at hsources
  rw [← g.widths_outputIds] at htargets
  rw [hsources] at hfit ⊢
  rw [htargets]
  exact hread bus g hg address (Routine.accepts_iff.2 hfit) cache cache' hcache

/-- Nested calls are answered alike where calls may still be nested equally deep. -/
theorem answer_relates (hm : m.SplitsTo field m') (room : Nat) :
    ∀ id f, m.routines[id]? = some f → ∀ inputs, f.Accepts inputs → ∀ cache cache',
      Cache.Mirrors m (max field.registerWidth 1) cache cache' →
        m.faults.Relates (Answers (max field.registerWidth 1) (f.registers.widths f.outputIds)
            (Cache.Mirrors m (max field.registerWidth 1)))
          (m.answer room id inputs cache)
          (m'.answer room id
            (splitLines (max field.registerWidth 1) (f.registers.widths f.inputIds) inputs)
              cache') := by
  have hconfig := split_config hm.split_eq
  have hwidth : 0 < max field.registerWidth 1 :=
    Nat.lt_of_lt_of_le Nat.one_pos (Nat.le_max_right _ _)
  induction room with
  | zero =>
    intro id f hf inputs hin cache cache' hcache
    obtain ⟨split, -, hf', -⟩ := hm.routine hf
    refine serve_relates hwidth hf hf' hin ?_ hcache
    exact Related.both ⟨rfl, by rw [hconfig]⟩ trivial
  | succ room ih =>
    intro id f hf inputs hin cache cache' hcache
    obtain ⟨split, -, hf', hwf, hsplit, hpool, haddr⟩ := hm.routine hf
    refine serve_relates hwidth hf hf' hin ?_ hcache
    have hio := hm.boundary_splits hf ih
    rw [← hpool] at hio hcache ⊢
    have hrun :=
      hwf.run_relates { m.config with trace := false } hsplit haddr rfl rfl hio hin hcache
    rw [hconfig]
    exact hrun.bind fun _ _ _ _ h => .ok (h.2.answers h.1)

end SplitsTo

/-- **Splitting keeps what a machine computes.** On inputs that fit, a call of a linked machine of
accepted routines and the call of its split form on the limbs of the inputs, both with an empty
cache, either both run out of depth or both end the same way, with outputs that make up the outputs;
unless one of them runs out of steps. The offsets of microcodes in the split form have to be
sizes. -/
theorem split_call (hwf : ∀ f ∈ m.routines, f.WellFormed .unbounded) (hlinked : m.Linked)
    (h : m.split field = .ok m')
    (haddr : ∀ f ∈ m'.routines, ∀ instruction ∈ f.code, instruction.length < Word.modulus)
    (hf : m.routines[id]? = some f) (hin : f.Accepts inputs) :
    ∃ split inputs', f.splitWithLimbs field = .ok split ∧
      m'.routines[id]? = some split.routine ∧
        split.pool.splitValues f.inputIds inputs = some inputs' ∧
      ((∀ cache, m.call id inputs [] ≠ .error (.stepLimit m.config.maxSteps) cache) →
        (∀ cache, m'.call id inputs' [] ≠ .error (.stepLimit m.config.maxSteps) cache) →
        (∃ cache cache', m.call id inputs [] = .error (.callDepth m.config.maxDepth) cache ∧
          m'.call id inputs' [] = .error (.callDepth m.config.maxDepth) cache') ∨
        ∃ e cache e' cache', m.call id inputs [] = .ok e cache ∧
          m'.call id inputs' [] = .ok e' cache' ∧ e'.outcome = e.outcome ∧
          (e.outcome = .returned →
            split.pool.joinRuns f.outputIds e'.outputs = some e.outputs)) := by
  have hm : m.SplitsTo field m' := ⟨h, hwf, hlinked, haddr⟩
  have hconfig := split_config h
  obtain ⟨split, hsplit, hf', hwf, hof, hpool, haddr⟩ := hm.routine hf
  have hlen : inputs.length = f.inputIds.length := by simpa using hin.fit.length_eq.symm
  refine ⟨split, _, hsplit, hf',
    Pool.splitValues_eq hof.splits Routine.declares_inputIds hwf.widthOf_lt hlen, ?_⟩
  have hio := hm.boundary_splits hf (hm.answer_relates m.config.maxDepth)
  rw [← hpool] at hio
  have hrun := hwf.run_relates m.config hof haddr rfl rfl hio hin (Cache.mirrors_nil m _)
  have hcall : m.call id inputs [] = f.run m.config m.boundary inputs [] := by
    rw [call, hf]
  have hcall' : ∀ inputs', m'.call id inputs' [] =
      split.routine.run m.config (attach (m'.answer m.config.maxDepth)) inputs' [] := by
    intro inputs'
    rw [call, hf']
    simp only [boundary, hconfig]
  rw [hcall, hcall']
  intro hsteps hsteps'
  unfold boundary at hsteps ⊢
  generalize f.run m.config (attach (m.answer m.config.maxDepth)) inputs [] = x at hrun hsteps ⊢
  generalize split.routine.run m.config (attach (m'.answer m.config.maxDepth)) _ [] = y
    at hrun hsteps' ⊢
  cases hrun with
  | @ok e cache e' cache' h =>
    obtain ⟨-, hmatches⟩ := h
    refine .inr ⟨e, cache, e', cache', rfl, rfl, hmatches.outcome_eq, fun hret => ?_⟩
    rw [hmatches.outputs_eq hret]
    exact Pool.joinRuns_splitLines hof.splits Routine.declares_outputIds hwf.widthOf_lt
      (hmatches.fits hret)
  | both h =>
    obtain ⟨rfl, rfl⟩ := h
    exact .inl ⟨_, _, rfl, rfl⟩
  | left h => exact absurd (congrArg (EStateM.Result.error · _) h) (hsteps _)
  | right h => exact absurd (congrArg (EStateM.Result.error · _) h) (hsteps' _)

/-- Adds one, modulo `2 ^ 8`. -/
def increment : Routine where
  name := "increment"
  registers := [⟨.input, "x", 8, 0⟩, ⟨.output, "y", 8, 0⟩, ⟨.temp, "c", 1, 0⟩]
  buses := []
  code := [[.add [.reg 1, .reg 2] [.reg 0] 1, .ret]]

/-- Adds two, by asking routine one twice. -/
def addTwo : Routine where
  name := "addTwo"
  registers := [⟨.input, "a", 8, 0⟩, ⟨.output, "r", 8, 0⟩, ⟨.temp, "t", 8, 0⟩]
  buses := [⟨"increment", some 1, [.reg 0], [.reg 1]⟩]
  code := [[.call 1 [.reg 2] [.reg 0], .call 1 [.reg 1] [.reg 2], .ret]]

/-- A machine whose first routine calls its second. -/
def counting : Machine := { routines := [addTwo, increment] }

theorem counting_wellFormed : ∀ f ∈ counting.routines, f.WellFormed .unbounded := by
  intro f hf
  rcases List.mem_pair.1 hf with rfl | rfl
  · exact ⟨by decide, rfl, by decide, by decide, by decide, by decide⟩
  · exact ⟨by decide, rfl, by decide, by decide, by decide, by decide⟩

theorem counting_linked : counting.Linked := by
  have hcalls : ∀ f ∈ counting.routines, ∀ instruction ∈ f.code, ∀ code ∈ instruction,
      code.isLocal = true ∨
      ((code = .call 1 [.reg 2] [.reg 0] ∨ code = .call 1 [.reg 1] [.reg 2]) ∧
        f.registers = addTwo.registers) := by decide
  intro f hf instruction hi bus targets sources hc
  rcases hcalls f hf instruction hi _ hc with hlocal | ⟨hcall | hcall, hregs⟩
  · cases hlocal
  · cases hcall
    rw [hregs]
    exact ⟨increment, rfl, rfl, rfl⟩
  · cases hcall
    rw [hregs]
    exact ⟨increment, rfl, rfl, rfl⟩

/-- Two more than ninety-three, counted over limbs of four bits. -/
theorem split_call_counting : ∃ m' split e cache e' cache',
    counting.split ⟨"small", 12, 4⟩ = .ok m' ∧
      addTwo.splitWithLimbs ⟨"small", 12, 4⟩ = .ok split ∧
        counting.call 0 [93] [] = .ok e cache ∧ m'.call 0 [13, 5] [] = .ok e' cache' ∧
      (e.outcome = .returned ∧ e.outputs = [95]) ∧ e'.outcome = .returned ∧
      split.pool.joinRuns addTwo.outputIds e'.outputs = some [95] := by
  have hin : addTwo.Accepts [93] := .cons (by decide) .nil
  have hreturns : (match counting.call 0 [93] [] with
      | .ok e _ => e.outcome == .returned && e.outputs == [95]
      | .error _ _ => false) = true := by decide +kernel
  have hcheck : (match counting.split ⟨"small", 12, 4⟩ with
      | .ok m' =>
        (m'.routines.all fun f => f.code.all fun instruction => instruction.length < 10) &&
        match m'.call 0 [13, 5] [] with
        | .ok _ _ => true
        | .error _ _ => false
      | .error _ => false) = true := by decide +kernel
  have hvalues : (match addTwo.splitWithLimbs ⟨"small", 12, 4⟩ with
      | .ok split => split.pool.splitValues addTwo.inputIds [93] == some [13, 5]
      | .error _ => false) = true := by decide +kernel
  cases hsplit : counting.split ⟨"small", 12, 4⟩ with
  | error e =>
    rw [hsplit] at hcheck
    cases hcheck
  | ok m' =>
    rw [hsplit] at hcheck
    simp only [Bool.and_eq_true, List.all_eq_true, decide_eq_true_eq] at hcheck
    obtain ⟨hshort, hends'⟩ := hcheck
    have haddr : ∀ f ∈ m'.routines, ∀ instruction ∈ f.code, instruction.length <
        Word.modulus :=
      fun f hf instruction hi => Nat.lt_trans (hshort f hf instruction hi) (by decide)
    have hfirst : counting.routines[0]? = some addTwo := rfl
    obtain ⟨split, inputs', hsplit', -, hinputs, hagree⟩ :=
      split_call counting_wellFormed counting_linked hsplit haddr hfirst hin
    rw [hsplit'] at hvalues
    rw [eq_of_beq hvalues] at hinputs
    cases hinputs
    -- neither run hits its limit, and neither runs out of depth
    have hok : ∀ e cache, counting.call 0 [93] [] ≠ .error e cache := by
      intro e cache heq
      rw [heq] at hreturns
      cases hreturns
    have hok' : ∀ e cache, m'.call 0 [13, 5] [] ≠ .error e cache := by
      intro e cache heq
      rw [heq] at hends'
      cases hends'
    rcases hagree (hok _) (hok' _) with ⟨cache, cache', hdepth, -⟩ |
      ⟨e, cache, e', cache', hcall, hcall', houtcome, hjoin⟩
    · exact absurd hdepth (hok _ _)
    · rw [hcall] at hreturns
      simp only [Bool.and_eq_true, beq_iff_eq] at hreturns
      obtain ⟨hreturned, houtputs⟩ := hreturns
      exact ⟨m', split, e, cache, e', cache', rfl, hsplit', hcall, hcall',
        ⟨hreturned, houtputs⟩, houtcome.trans hreturned, houtputs ▸ hjoin hreturned⟩

end Machine

end LimbMachine
