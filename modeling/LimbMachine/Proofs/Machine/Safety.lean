import LimbMachine.Proofs.Machine.Requests
import LimbMachine.Proofs.Split.Machine

/-!
# Linked machines do not get stuck

The routines of a linked machine answer each other by values that fit, so each of them runs safely.
The invariant is one of the cache (`Cache.Fits`), which every nested run shares: by induction on how
deep calls may still be nested, an answer fits, keeps the invariant and fails only at one of the two
limits of the machine (`Machine.answer_reliable`).
-/

namespace LimbMachine

/-- One value for each output, each fitting. -/
def Routine.Emits (f : Routine) (outputs : List Nat) : Prop :=
  List.Forall₂ (fun r v => r.fits v = true) f.outputs outputs

theorem Routine.emits_iff {f : Routine} {outputs : List Nat} :
    f.Emits outputs ↔ Digits.Fit (f.registers.widths f.outputIds) outputs := by
  rw [widths_outputIds, Digits.Fit, List.forall₂_map_left_iff]
  exact ⟨fun h => h.imp fun r v => (Register.fits_iff r v).1,
    fun h => h.imp fun r v => (Register.fits_iff r v).2⟩

/-- Every answer in the cache that is not a failure consists of outputs that fit. -/
def Cache.Fits (m : Machine) (cache : Cache) : Prop :=
  ∀ id inputs vs, cache.find? ⟨id, inputs⟩ = some (some vs) →
    ∃ f, m.routines[id]? = some f ∧ f.Emits vs

/-- The request is to a routine of the machine, on inputs that fit. -/
def Request.Admissible (m : Machine) : Request → Prop
  | .call id inputs => ∃ f, m.routines[id]? = some f ∧ f.Accepts inputs
  | .read bus address => ∃ f, m.routines[bus]? = some f ∧ f.Accepts address
  | .rows id table => ∃ f, m.routines[id]? = some f ∧ ∀ row ∈ table, f.Accepts row

namespace Machine

variable {m : Machine} {id : Nat} {f : Routine} {inputs : List Nat} {cache : Cache}
  {answer : Option (List Nat)}

theorem fits_nil (m : Machine) : Cache.Fits m [] := by
  intro id inputs vs h
  cases h

theorem fits_insert (h : cache.Fits m) (hf : m.routines[id]? = some f)
    (hanswer : ∀ vs, answer = some vs → f.Emits vs) :
    (cache.insert ⟨id, inputs⟩ answer).Fits m := by
  intro id' inputs' vs hfind
  rw [Cache.find?_insert] at hfind
  split at hfind
  · rename_i hcall
    cases hcall
    exact ⟨f, hf, hanswer vs (Option.some.inj hfind)⟩
  · exact h id' inputs' vs hfind

/-- The error is one of the two limits of the machine. -/
def IsLimit (m : Machine) (e : RunError) : Prop :=
  e = .stepLimit m.config.maxSteps ∨ e = .callDepth m.config.maxDepth

/-- A routine is answered by outputs that fit, or one of the limits is hit. -/
def Fitting (m : Machine) (f : Routine) :
    EStateM.Result RunError Cache (Option (List Nat)) → Prop
  | .ok answer cache => cache.Fits m ∧ ∀ vs, answer = some vs → f.Emits vs
  | .error e cache => cache.Fits m ∧ m.IsLimit e

/-- Calls of the routines of the machine on inputs that fit are answered by outputs that fit. -/
def Reliable (m : Machine)
    (read : Nat → List Nat → EStateM RunError Cache (Option (List Nat))) :
    Prop :=
  ∀ id f, m.routines[id]? = some f → ∀ inputs, f.Accepts inputs →
    ∀ cache, cache.Fits m → m.Fitting f (read id inputs cache)

/-- What a routine of a linked machine asks is within what its callee accepts. -/
theorem Linked.serves (hlinked : m.Linked) (hf : f ∈ m.routines)
    {read : Nat → List Nat → EStateM RunError Cache (Option (List Nat))}
    (hread : m.Reliable read) : (attach read).Serves f (Cache.Fits m) m.IsLimit := by
  intro instruction hi bus targets sources hc address cache hfit hcache
  obtain ⟨g, hg, hsources, htargets⟩ := hlinked f hf instruction hi bus targets sources hc
  rw [hsources, ← g.widths_inputIds] at hfit
  have hanswer := hread bus g hg address (Routine.accepts_iff.2 hfit) cache hcache
  have hattach : (attach read).read bus address cache = read bus address cache := rfl
  rw [hattach]
  cases hans : read bus address cache with
  | error e cache₁ =>
    rw [hans] at hanswer
    exact hanswer
  | ok answer cache₁ =>
    rw [hans] at hanswer
    refine ⟨hanswer.1, fun vs hvs => ?_⟩
    have hvs := Routine.emits_iff.1 (hanswer.2 vs hvs)
    rw [g.widths_outputIds, ← htargets] at hvs
    refine List.Forall₂.imp (fun id v hlt => ?_) (List.forall₂_map_left_iff.1 hvs)
    exact fun _ => hlt

/-- An answer from the cache fits, and so does one that is evaluated to values that fit. -/
theorem serve_fitting
    {evaluate : Routine → List Nat → EStateM RunError Cache (Option (List Nat))}
    (hf : m.routines[id]? = some f) (hcache : cache.Fits m)
    (heval : m.Fitting f (evaluate f inputs cache)) :
    m.Fitting f (m.serve evaluate id inputs cache) := by
  unfold serve
  rw [hf]
  cases hhit : cache.find? ⟨id, inputs⟩ with
  | some answer =>
    simp only
    refine ⟨hcache, fun vs hvs => ?_⟩
    obtain ⟨g, hg, hemits⟩ := hcache id inputs vs (hvs ▸ hhit)
    rw [hf] at hg
    cases hg
    exact hemits
  | none =>
    simp only
    cases hans : evaluate f inputs cache with
    | error e cache₁ =>
      rw [hans] at heval
      exact heval
    | ok answer cache₁ =>
      rw [hans] at heval
      exact ⟨fits_insert heval.1 hf heval.2, heval.2⟩

section Linked

variable (hwf : ∀ f ∈ m.routines, ∃ field, f.WellFormed field) (hlinked : m.Linked)

include hwf hlinked

/-- A run of a routine whose calls are answered by values that fit. -/
theorem run_reliable {read : Nat → List Nat → EStateM RunError Cache (Option (List Nat))}
    (hread : m.Reliable read) (hf : m.routines[id]? = some f) (hin : f.Accepts inputs)
    (hcache : cache.Fits m) {config : RunConfig} (hsteps : config.maxSteps = m.config.maxSteps) :
    match f.run config (attach read) inputs cache with
    | .ok execution cache₁ =>
      cache₁.Fits m ∧ ∀ vs, execution.answer = some vs → f.Emits vs
    | .error e cache₁ => cache₁.Fits m ∧ m.IsLimit e := by
  have hmem := List.mem_of_getElem? hf
  obtain ⟨field, hwf⟩ := hwf f hmem
  have hcases := hwf.run_cases (hlinked.serves hmem hread) hin config hcache
  cases hrun : f.run config (attach read) inputs cache with
  | ok execution cache₁ =>
    rw [hrun] at hcases
    exact ⟨hcases.1, fun vs hvs => Routine.emits_iff.2 (hcases.2 vs hvs)⟩
  | error e cache₁ =>
    rw [hrun, hsteps] at hcases
    refine ⟨hcases.1, ?_⟩
    rcases hcases.2 with hlimit | hlimit
    · exact .inl hlimit
    · exact hlimit

/-- However deep calls may still be nested, answers fit. -/
theorem answer_reliable (room : Nat) : m.Reliable (m.answer room) := by
  induction room with
  | zero =>
    intro id f hf inputs hin cache hcache
    exact serve_fitting hf hcache ⟨hcache, .inr rfl⟩
  | succ room ih =>
    intro id f hf inputs hin cache hcache
    refine serve_fitting hf hcache ?_
    have hrun := run_reliable hwf hlinked ih hf hin hcache
      (show { m.config with trace := false }.maxSteps = m.config.maxSteps from rfl)
    cases hresult :
      f.run { m.config with trace := false } (attach (m.answer room)) inputs cache with
    | ok execution cache₁ =>
      rw [hresult] at hrun
      rw [estate_bind_of_ok hresult]
      exact hrun
    | error e cache₁ =>
      rw [hresult] at hrun
      rw [estate_bind_of_error hresult]
      exact hrun

/-- A call on inputs that fit keeps the cache fitting, and fails only at one of the limits. -/
theorem call_reliable (hf : m.routines[id]? = some f) (hin : f.Accepts inputs)
    (hcache : cache.Fits m) :
    (finalState (m.call id inputs cache)).Fits m ∧
      ∀ e, given (m.call id inputs cache) = .error e → m.IsLimit e := by
  have hrun :=
    run_reliable hwf hlinked (answer_reliable hwf hlinked m.config.maxDepth) hf hin hcache rfl
  rw [call_eq_run hf]
  cases hresult : f.run m.config (attach (m.answer m.config.maxDepth)) inputs cache with
  | ok execution cache₁ =>
    rw [hresult] at hrun
    exact ⟨hrun.1, fun e he => by cases he⟩
  | error e cache₁ =>
    rw [hresult] at hrun
    refine ⟨hrun.1, fun e he => ?_⟩
    cases he
    exact hrun.2

/-- An admissible request keeps the cache fitting. -/
theorem after_fits {request : Request} (h : request.Admissible m) (hcache : cache.Fits m) :
    (m.after cache request).Fits m := by
  cases request with
  | call id inputs =>
    obtain ⟨f, hf, hin⟩ := h
    exact (call_reliable hwf hlinked hf hin hcache).1
  | rows id rows =>
    obtain ⟨f, hf, hin⟩ := h
    refine finalState_callRows (fun row hrow cache hcache => ?_) hcache
    exact (call_reliable hwf hlinked hf (hin row hrow) hcache).1
  | read bus address =>
    obtain ⟨f, hf, hin⟩ := h
    have hanswer := answer_reliable hwf hlinked m.config.maxDepth bus f hf address hin cache hcache
    show (finalState (m.answer m.config.maxDepth bus address cache)).Fits m
    cases hresult : m.answer m.config.maxDepth bus address cache with
    | ok answer cache₁ =>
      rw [hresult] at hanswer
      exact hanswer.1
    | error e cache₁ =>
      rw [hresult] at hanswer
      exact hanswer.1

/-- **Linked machines do not get stuck.** Whatever admissible requests a linked machine of accepted
routines has answered, a call of one of its routines on inputs that fit ends, runs out of steps or
runs out of depth; and every answer it has cached that is not a failure is one fitting value for
each output of its routine. -/
theorem call_after_history {requests : List Request}
    (hrequests : ∀ request ∈ requests, request.Admissible m) (hf : m.routines[id]? = some f)
    (hin : f.Accepts inputs) :
    ((∃ execution, given (m.call id inputs (m.history requests)) = .ok execution) ∨
      given (m.call id inputs (m.history requests)) = .error (.stepLimit m.config.maxSteps) ∨
      given (m.call id inputs (m.history requests)) = .error (.callDepth m.config.maxDepth)) ∧
    ∀ id inputs vs, (m.history requests).find? ⟨id, inputs⟩ = some (some vs) →
      ∃ f, m.routines[id]? = some f ∧
        List.Forall₂ (fun r v => r.fits v = true) f.outputs vs := by
  have hcache : (m.history requests).Fits m :=
    history_induction (fits_nil m) fun request hr cache hcache =>
      after_fits hwf hlinked (hrequests request hr) hcache
  refine ⟨?_, hcache⟩
  have hlimit := (call_reliable hwf hlinked hf hin hcache).2
  cases hgiven : given (m.call id inputs (m.history requests)) with
  | ok execution => exact .inl ⟨execution, rfl⟩
  | error e =>
    rcases hlimit e hgiven with rfl | rfl
    · exact .inr (.inl rfl)
    · exact .inr (.inr rfl)

end Linked

/-- A call, an answer as a boundary and a table of two rows. -/
def countingRequests : List Request := [.call 0 [254], .read 1 [255], .rows 0 [[0], [6]]]

theorem call_after_history_counting :
    ((∃ execution,
        given (counting.call 0 [7] (counting.history countingRequests)) = .ok execution) ∨
      given (counting.call 0 [7] (counting.history countingRequests)) =
        .error (.stepLimit 1000000) ∨
      given (counting.call 0 [7] (counting.history countingRequests)) = .error (.callDepth 128)) ∧
    ∀ id inputs vs,
      (counting.history countingRequests).find? ⟨id, inputs⟩ = some (some vs) →
      ∃ f, counting.routines[id]? = some f ∧
        List.Forall₂ (fun r v => r.fits v = true) f.outputs vs := by
  have hwf : ∀ f ∈ counting.routines, ∃ field, f.WellFormed field :=
    fun f hf => ⟨.unbounded, counting_wellFormed f hf⟩
  have hfirst : counting.routines[0]? = some addTwo := rfl
  have hin : addTwo.Accepts [7] := .cons (by decide) .nil
  have hrequests : ∀ request ∈ countingRequests, request.Admissible counting := by
    intro request hr
    simp only [countingRequests, List.mem_cons, List.not_mem_nil, or_false] at hr
    rcases hr with rfl | rfl | rfl
    · exact ⟨addTwo, rfl, .cons (by decide) .nil⟩
    · exact ⟨increment, rfl, .cons (by decide) .nil⟩
    · refine ⟨addTwo, rfl, fun row hrow => ?_⟩
      rcases List.mem_pair.1 hrow with rfl | rfl
      · exact .cons (by decide) .nil
      · exact .cons (by decide) .nil
  exact call_after_history hwf counting_linked hrequests hfirst hin

end Machine

end LimbMachine
