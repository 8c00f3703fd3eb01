import LimbMachine.Proofs.Exec.Boundaries
import LimbMachine.Proofs.Machine.Requests
import LimbMachine.Proofs.Split.Machine

/-!
# The cache is transparent

A machine looks a nested call up before it runs it, and so gives answers that a run without a cache
would give, or would give if calls could be nested deeper. The invariant of the cache is that each
of its entries can be computed from the entries below it and nothing else (`Machine.Grounded`). From
outside two things follow: an entry is what evaluation without a cache settles on
(`Grounded.settles`), and a larger cache changes an answer only by avoiding the depth limit
(`answer_alike`).
-/

namespace LimbMachine

namespace Cache

/-- Whatever is found in the first cache is found in the second. -/
def Within (cache cache' : Cache) : Prop :=
  ∀ call answer, cache.find? call = some answer → cache'.find? call = some answer

variable {cache cache' cache'' : Cache} {call : Call} {answer : Option (List Nat)}

theorem Within.refl (cache : Cache) : cache.Within cache := fun _ _ h => h

theorem Within.trans (h : cache.Within cache') (h' : cache'.Within cache'') :
    cache.Within cache'' :=
  fun call answer hfind => h' call answer (h call answer hfind)

theorem nil_within (cache : Cache) : Within [] cache := by
  intro call answer h
  cases h

/-- An answer that is not contradicted may be set. -/
theorem within_insert (h : ∀ old, cache.find? call = some old → old = answer) :
    cache.Within (cache.insert call answer) := by
  intro call' answer' hfind
  rw [find?_insert]
  split
  · rename_i heq
    subst heq
    rw [h answer' hfind]
  · exact hfind

theorem Within.insert_left (h : cache.Within cache') (hfind : cache'.find? call = some answer) :
    (cache.insert call answer).Within cache' := by
  intro call' answer' hfind'
  rw [find?_insert] at hfind'
  split at hfind'
  · rename_i heq
    cases hfind'
    exact heq ▸ hfind
  · exact h call' answer' hfind'

theorem Within.insert (h : cache.Within cache') :
    (cache.insert call answer).Within (cache'.insert call answer) := by
  intro call' answer' hfind
  rw [find?_insert] at hfind ⊢
  split at hfind
  · rename_i heq
    rw [if_pos heq, hfind]
  · rename_i hne
    rw [if_neg hne]
    exact h call' answer' hfind

end Cache

namespace Machine

/-- How nested calls are run. -/
abbrev quiet (m : Machine) : RunConfig := { m.config with trace := false }

/-- Evaluates a call anew, with calls nested less than `depth` deep and nothing cached. -/
def evaluate (m : Machine) : Nat → Nat → List Nat → Except RunError (Option (List Nat))
  | 0, _, _ => .error (.callDepth m.config.maxDepth)
  | depth + 1, id, inputs =>
    match m.routines[id]? with
    | none => .error (.unknownBus id)
    | some f =>
      (given (f.run m.quiet (.ofFn (m.evaluate depth)) inputs ())).map
        Execution.answer

/-- Evaluation without a cache and without a limit on the depth gives the answer. -/
def Settles (m : Machine) (id : Nat) (inputs : List Nat) (answer : Option (List Nat)) : Prop :=
  ∃ depth, ∀ room ≥ depth, m.evaluate room id inputs = .ok answer

/-! ## Answers -/

variable {m : Machine} {id room : Nat} {f : Routine} {inputs : List Nat} {cache cache' : Cache}
  {answer : Option (List Nat)} {execution : Execution} {config : RunConfig}

/-- The answer of a nested run is cached. -/
def keep (call : Call) : EStateM.Result RunError Cache Execution →
    EStateM.Result RunError Cache (Option (List Nat))
  | .ok execution cache => .ok execution.answer (cache.insert call execution.answer)
  | .error e cache => .error e cache

theorem answer_unknown (h : m.routines[id]? = none) (room : Nat) :
    m.answer room id inputs cache = .error (.unknownBus id) cache := by
  cases room <;> simp [answer, serve, h]

theorem answer_hit (hf : m.routines[id]? = some f) (h : cache.find? ⟨id, inputs⟩ = some answer)
    (room : Nat) : m.answer room id inputs cache = .ok answer cache := by
  cases room <;> simp [Machine.answer, serve, hf, h]

theorem answer_zero_miss (hf : m.routines[id]? = some f) (h : cache.find? ⟨id, inputs⟩ = none) :
    m.answer 0 id inputs cache = .error (.callDepth m.config.maxDepth) cache := by
  simp only [answer, serve, hf, h]
  rfl

/-- A call that is not cached is served by the answer of its run. -/
theorem serve_miss (hf : m.routines[id]? = some f) (h : cache.find? ⟨id, inputs⟩ = none)
    (run : Routine → List Nat → EStateM RunError Cache Execution) :
    m.serve (fun f inputs => do return (← run f inputs).answer) id inputs cache =
      keep ⟨id, inputs⟩ (run f inputs cache) := by
  simp only [serve, hf, h]
  cases hrun : run f inputs cache with
  | ok execution cache₁ =>
    rw [estate_bind_of_ok hrun]
    rfl
  | error e cache₁ =>
    rw [estate_bind_of_error hrun]
    rfl

theorem answer_succ_miss (hf : m.routines[id]? = some f) (h : cache.find? ⟨id, inputs⟩ = none) :
    m.answer (room + 1) id inputs cache = keep ⟨id, inputs⟩
      (f.run m.quiet (attach (m.answer room)) inputs cache) :=
  serve_miss hf h fun f inputs => f.run m.quiet (attach (m.answer room)) inputs

/-- Where nothing may be nested, only what is cached is answered. -/
theorem answer_zero_ok (h : m.answer 0 id inputs cache = .ok answer cache') :
    (∃ f, m.routines[id]? = some f) ∧ cache.find? ⟨id, inputs⟩ = some answer ∧
      cache' = cache := by
  cases hf : m.routines[id]? with
  | none =>
    rw [answer_unknown hf] at h
    cases h
  | some f =>
    cases hfind : cache.find? ⟨id, inputs⟩ with
    | none =>
      rw [answer_zero_miss hf hfind] at h
      cases h
    | some answer' =>
      rw [answer_hit hf hfind] at h
      cases h
      exact ⟨⟨f, rfl⟩, rfl, rfl⟩

/-! ## Caches that are grounded -/

/-- Each entry is the answer of a run whose calls are all answered by the entries below it. -/
inductive Grounded (m : Machine) : Cache → Prop
  | nil : Grounded m []
  | insert {cache : Cache} {id : Nat} {inputs : List Nat} {f : Routine} {execution : Execution}
    (below : Grounded m cache) (hf : m.routines[id]? = some f)
    (hrun : f.run m.quiet (attach (m.answer 0)) inputs cache =
      .ok execution cache) : Grounded m (cache.insert ⟨id, inputs⟩ execution.answer)

/-- A run whose calls are all answered by a cache is what evaluation gives, where evaluation gives
the entries of the cache. -/
theorem evaluate_of_run {n : Nat} (hf : m.routines[id]? = some f)
    (hrun : f.run m.quiet (attach (m.answer 0)) inputs cache =
      .ok execution cache)
    (hcache : ∀ id inputs answer, cache.find? ⟨id, inputs⟩ = some answer →
      m.evaluate n id inputs = .ok answer) :
    m.evaluate (n + 1) id inputs = .ok execution.answer := by
  have halike : Alike (fun _ => True) (fun _ => False) (fun c (_ : Unit) => c = cache)
      (f.run m.quiet (attach (m.answer 0)) inputs cache)
      (f.run m.quiet (.ofFn (m.evaluate n)) inputs ()) := by
    refine Routine.run_alike (fun bus address c u hc => ?_) _ _ rfl
    subst hc
    show Alike _ _ _ (m.answer 0 bus address c) _
    cases hans : m.answer 0 bus address c with
    | error e c₁ => exact .left trivial
    | ok answer c₁ =>
      obtain ⟨-, hfind, rfl⟩ := answer_zero_ok hans
      simp only [Boundary.ofFn, hcache bus address answer hfind]
      exact .ok rfl
  rw [hrun] at halike
  simp only [evaluate, hf]
  generalize f.run m.quiet (.ofFn (m.evaluate n)) inputs () = x at halike ⊢
  cases halike with
  | ok h => rw [h.1]; rfl
  | right h => exact h.elim

namespace Grounded

/-- All entries of a grounded cache are given by evaluation at some depth and beyond. -/
theorem exists_depth (h : m.Grounded cache) : ∃ depth, ∀ id inputs answer,
    cache.find? ⟨id, inputs⟩ = some answer →
      ∀ room ≥ depth, m.evaluate room id inputs = .ok answer := by
  induction h with
  | nil =>
    refine ⟨0, fun id inputs answer hfind => ?_⟩
    cases hfind
  | @insert cache id inputs f execution below hf hrun ih =>
    obtain ⟨depth, hdepth⟩ := ih
    refine ⟨depth + 1, fun id' inputs' answer hfind room hroom => ?_⟩
    rw [Cache.find?_insert] at hfind
    split at hfind
    · rename_i hcall
      cases hcall
      cases hfind
      obtain ⟨n, rfl⟩ : ∃ n, room = n + 1 := ⟨room - 1, by omega⟩
      exact evaluate_of_run hf hrun fun id inputs answer h => hdepth id inputs answer h n (by omega)
    · exact hdepth id' inputs' answer hfind room (by omega)

/-- An entry of a grounded cache is what evaluation without a cache settles on. -/
theorem settles (h : m.Grounded cache) (hfind : cache.find? ⟨id, inputs⟩ = some answer) :
    m.Settles id inputs answer := by
  obtain ⟨depth, hdepth⟩ := h.exists_depth
  exact ⟨depth, hdepth id inputs answer hfind⟩

end Grounded

theorem Settles.unique {answer' : Option (List Nat)} (h : m.Settles id inputs answer)
    (h' : m.Settles id inputs answer') : answer = answer' := by
  obtain ⟨depth, hdepth⟩ := h
  obtain ⟨depth', hdepth'⟩ := h'
  have heq := hdepth (max depth depth') (Nat.le_max_left _ _)
  rw [hdepth' _ (Nat.le_max_right _ _)] at heq
  exact (Except.ok.inj heq).symm

namespace Grounded

/-- What can be computed from a grounded cache does not contradict it. -/
theorem within_insert (h : m.Grounded cache) (hf : m.routines[id]? = some f)
    (hrun : f.run m.quiet (attach (m.answer 0)) inputs cache =
      .ok execution cache) : cache.Within (cache.insert ⟨id, inputs⟩ execution.answer) := by
  refine Cache.within_insert fun old hold => ?_
  refine (h.settles hold).unique ((h.insert hf hrun).settles ?_)
  rw [Cache.find?_insert, if_pos rfl]

end Grounded

/-- A run whose calls are all answered by a cache can be repeated with a larger one. -/
theorem run_within (h : cache.Within cache')
    (hrun : f.run config (attach (m.answer 0)) inputs cache = .ok execution cache) :
    f.run config (attach (m.answer 0)) inputs cache' = .ok execution cache' := by
  have hio : (attach (m.answer 0)).Repeats (attach (m.answer 0)) (· = cache) (fun _ =>
    True) cache' := by
    intro bus address c answer c₁ hc hans
    obtain ⟨⟨g, hg⟩, hfind, rfl⟩ := answer_zero_ok hans
    subst hc
    exact ⟨rfl, fun _ => ⟨trivial, answer_hit hg (h _ _ hfind) 0⟩⟩
  exact Routine.run_replay hio hrun rfl trivial

/-- Each entry of a grounded cache can be computed from the whole cache. -/
theorem Grounded.recompute (h : m.Grounded cache)
    (hfind : cache.find? ⟨id, inputs⟩ = some answer) :
    ∃ f execution, m.routines[id]? = some f ∧ execution.answer = answer ∧
      f.run m.quiet (attach (m.answer 0)) inputs cache =
        .ok execution cache := by
  induction h generalizing id inputs answer with
  | nil => cases hfind
  | insert below hf hrun ih =>
    have hwithin := below.within_insert hf hrun
    rw [Cache.find?_insert] at hfind
    split at hfind
    · rename_i hcall
      cases hcall
      cases hfind
      exact ⟨_, _, hf, rfl, run_within hwithin hrun⟩
    · obtain ⟨g, execution', hg, hanswer, hrun'⟩ := ih hfind
      exact ⟨g, execution', hg, hanswer, run_within hwithin hrun'⟩

/-! ## Requests keep the cache grounded -/

/-- The cache is grounded and has grown. -/
def Grows (m : Machine) (cache cache' : Cache) : Prop := m.Grounded cache' ∧ cache.Within cache'

theorem Grows.trans {cache'' : Cache} (h : m.Grows cache cache') (h' : m.Grows cache' cache'') :
    m.Grows cache cache'' := ⟨h'.1, h.2.trans h'.2⟩

/-- Calls are answered from a cache that grows, and answers are entries of the cache they leave. -/
def Grounding (m : Machine)
    (read : Nat → List Nat → EStateM RunError Cache (Option (List Nat))) :
    Prop :=
  ∀ id inputs cache, m.Grounded cache → m.Grows cache (finalState (read id inputs cache)) ∧
    ∀ answer cache', read id inputs cache = .ok answer cache' →
      (∃ f, m.routines[id]? = some f) ∧ cache'.find? ⟨id, inputs⟩ = some answer

variable {read : Nat → List Nat → EStateM RunError Cache (Option (List Nat))}

theorem Grounding.run_grows (hread : m.Grounding read) (f : Routine) (config : RunConfig)
    (inputs : List Nat) (h : m.Grounded cache) :
    m.Grows cache (finalState (f.run config (attach read) inputs cache)) := by
  -- the run is like itself, with a memory that has grown
  have hself : Alike (fun _ => False) (fun _ => False) (fun c c' => c = c' ∧ m.Grows cache c)
      (f.run config (attach read) inputs cache) (f.run config (attach read) inputs cache) := by
    refine Routine.run_alike (fun bus address c c' hc => ?_) _ _ ⟨rfl, h, .refl cache⟩
    obtain ⟨rfl, hgrows⟩ := hc
    show Alike _ _ _ (read bus address c) (read bus address c)
    have hafter := hgrows.trans (hread bus address c hgrows.1).1
    cases hans : read bus address c with
    | ok answer c₁ =>
      rw [hans] at hafter
      exact .ok ⟨rfl, hafter⟩
    | error e c₁ =>
      rw [hans] at hafter
      exact .error ⟨rfl, hafter⟩
  generalize f.run config (attach read) inputs cache = x at hself ⊢
  cases hself with
  | ok h => exact h.2.2
  | both _ h => exact h.2
  | left h => exact h.elim
  | right h => exact h.elim

/-- The calls of a run are all answered by the cache it leaves. -/
theorem Grounding.run_again (hread : m.Grounding read) (h : m.Grounded cache)
    (hrun : f.run config (attach read) inputs cache = .ok execution cache') :
    f.run config (attach (m.answer 0)) inputs cache' = .ok execution cache' := by
  have hio : (attach read).Repeats (attach (m.answer 0)) m.Grounded (·.Within cache') cache' := by
    intro bus address c answer c₁ hc hans
    obtain ⟨hgrows, hentry⟩ := hread bus address c hc
    obtain ⟨⟨g, hg⟩, hfind⟩ := hentry answer c₁ hans
    have hleaves : finalState (read bus address c) = c₁ := congrArg finalState hans
    rw [hleaves] at hgrows
    exact ⟨hgrows.1, fun hbelow => ⟨hgrows.2.trans hbelow,
      answer_hit hg (hbelow _ _ hfind) 0⟩⟩
  exact Routine.run_replay hio hrun h (.refl cache')

/-- Only a call that is not cached yet has to be looked at. -/
theorem grounding_of_miss (hmiss : ∀ id f, m.routines[id]? = some f → ∀ inputs cache,
      m.Grounded cache → cache.find? ⟨id, inputs⟩ = none →
        m.Grows cache (finalState (m.answer room id inputs cache)) ∧
          ∀ answer cache', m.answer room id inputs cache = .ok answer cache' →
            cache'.find? ⟨id, inputs⟩ = some answer) :
    m.Grounding (m.answer room) := by
  intro id inputs cache h
  cases hf : m.routines[id]? with
  | none =>
    rw [answer_unknown hf]
    exact ⟨⟨h, .refl cache⟩, fun answer cache' hans => by cases hans⟩
  | some f =>
    cases hfind : cache.find? ⟨id, inputs⟩ with
    | some answer =>
      rw [answer_hit hf hfind]
      refine ⟨⟨h, .refl cache⟩, fun answer' cache' hans => ?_⟩
      cases hans
      exact ⟨⟨f, rfl⟩, hfind⟩
    | none =>
      obtain ⟨hgrows, hentry⟩ := hmiss id f hf inputs cache h hfind
      exact ⟨hgrows, fun answer cache' hans => ⟨⟨f, rfl⟩, hentry answer cache' hans⟩⟩

/-- However deep calls may still be nested, their answers keep the cache grounded. -/
theorem answer_grounding (m : Machine) (room : Nat) : m.Grounding (m.answer room) := by
  induction room with
  | zero =>
    refine grounding_of_miss fun id f hf inputs cache h hfind => ?_
    rw [answer_zero_miss hf hfind]
    exact ⟨⟨h, .refl cache⟩, fun answer cache' hans => by cases hans⟩
  | succ room ih =>
    refine grounding_of_miss fun id f hf inputs cache h hfind => ?_
    rw [answer_succ_miss hf hfind]
    have hgrows := ih.run_grows f m.quiet inputs h
    cases hrun : f.run m.quiet (attach (m.answer room)) inputs cache with
    | error e cache₁ =>
      rw [hrun] at hgrows
      exact ⟨hgrows, fun answer cache' hans => by cases hans⟩
    | ok execution cache₁ =>
      rw [hrun] at hgrows
      have hagain := ih.run_again h hrun
      refine ⟨hgrows.trans ⟨hgrows.1.insert hf hagain, hgrows.1.within_insert hf hagain⟩,
        ?_⟩
      intro answer cache' hans
      cases hans
      rw [Cache.find?_insert, if_pos rfl]

theorem call_grounded (id : Nat) (inputs : List Nat) (h : m.Grounded cache) :
    m.Grounded (finalState (m.call id inputs cache)) := by
  cases hf : m.routines[id]? with
  | none =>
    unfold call
    rw [hf]
    exact h
  | some f =>
    rw [call_eq_run hf]
    exact ((answer_grounding m _).run_grows f m.config inputs h).1

/-- Whatever a machine was asked for, its cache is grounded. -/
theorem history_grounded (m : Machine) (requests : List Request) :
    m.Grounded (m.history requests) := by
  refine history_induction .nil fun request _ cache h => ?_
  cases request with
  | call id inputs => exact call_grounded id inputs h
  | rows id rows => exact finalState_callRows (fun row _ _ h => call_grounded id row h) h
  | read bus address => exact (answer_grounding m _ bus address cache h).1.1

/-! ## A larger cache -/

/-- The depth limit of the machine is hit. -/
def IsDepth (m : Machine) (e : RunError) : Prop := e = .callDepth m.config.maxDepth

section Parts

variable {part : Cache} {left right : RunError → Prop}

/-- Only a call that the smaller cache does not answer has to be looked at. -/
theorem answer_alike_of_miss {R : Cache → Cache → Prop} {room' : Nat} (h : part.Within cache)
    (hR : R part cache)
    (hmiss : ∀ f, m.routines[id]? = some f → part.find? ⟨id, inputs⟩ = none →
      Alike left right R (m.answer room id inputs part) (m.answer room' id inputs cache)) :
    Alike left right R (m.answer room id inputs part) (m.answer room' id inputs cache) := by
  cases hf : m.routines[id]? with
  | none =>
    rw [answer_unknown hf, answer_unknown hf]
    exact .error hR
  | some f =>
    cases hfind : part.find? ⟨id, inputs⟩ with
    | some answer =>
      rw [answer_hit hf hfind, answer_hit hf (h _ _ hfind)]
      exact .ok hR
    | none => exact hmiss f hf hfind

/-- What a cache answers is answered from any part of it too, or the depth limit is hit. -/
theorem answer_recomputes (hground : m.Grounded cache) (room id : Nat) (inputs : List Nat)
    (h : part.Within cache) :
    Alike m.IsDepth (fun _ => True) (fun c c' => c.Within cache ∧ c' = cache)
      (m.answer room id inputs part) (m.answer 0 id inputs cache) := by
  induction room generalizing id inputs part with
  | zero =>
    refine answer_alike_of_miss h ⟨h, rfl⟩ fun f hf hmiss => ?_
    rw [answer_zero_miss hf hmiss]
    exact .left rfl
  | succ room ih =>
    refine answer_alike_of_miss h ⟨h, rfl⟩ fun f hf hmiss => ?_
    cases hfind : cache.find? ⟨id, inputs⟩ with
    | none =>
      rw [answer_zero_miss hf hfind]
      exact .right trivial
    | some answer =>
      -- the run that gave the entry is repeated from the smaller cache
      obtain ⟨g, execution, hg, rfl, hrun⟩ := hground.recompute hfind
      rw [hf] at hg
      cases hg
      have halike : Alike m.IsDepth (fun _ => True) (fun c c' => c.Within cache ∧ c' = cache)
          (f.run m.quiet (attach (m.answer room)) inputs part)
          (f.run m.quiet (attach (m.answer 0)) inputs cache) := by
        refine Routine.run_alike (fun bus address c c' hc => ?_) _ _ ⟨h, rfl⟩
        obtain ⟨hc, rfl⟩ := hc
        exact ih bus address hc
      rw [hrun] at halike
      rw [answer_succ_miss hf hmiss, answer_hit hf hfind]
      generalize f.run m.quiet (attach (m.answer room)) inputs part = x at halike ⊢
      cases halike with
      | ok hc =>
        obtain ⟨rfl, hwithin, -⟩ := hc
        exact .ok ⟨hwithin.insert_left hfind, rfl⟩
      | left hdepth => exact .left hdepth

/-- A larger cache changes an answer only where the depth limit is hit without it. -/
theorem answer_alike (hground : m.Grounded cache) (room id : Nat) (inputs : List Nat)
    (h : part.Within cache) :
    Alike m.IsDepth (fun _ => False) (fun c c' => c.Within c' ∧ m.Grounded c')
      (m.answer room id inputs part) (m.answer room id inputs cache) := by
  induction room generalizing id inputs part cache with
  | zero =>
    refine answer_alike_of_miss h ⟨h, hground⟩ fun f hf hmiss => ?_
    rw [answer_zero_miss hf hmiss]
    exact .left rfl
  | succ room ih =>
    refine answer_alike_of_miss h ⟨h, hground⟩ fun f hf hmiss => ?_
    cases hfind : cache.find? ⟨id, inputs⟩ with
    | some answer =>
      have hagain := answer_recomputes hground (room + 1) id inputs h
      rw [answer_hit hf hfind] at hagain ⊢
      generalize m.answer (room + 1) id inputs part = x at hagain ⊢
      cases hagain with
      | ok hc =>
        obtain ⟨rfl, hwithin, -⟩ := hc
        exact .ok ⟨hwithin, hground⟩
      | left hdepth => exact .left hdepth
    | none =>
      have hkept := (answer_grounding m (room + 1) id inputs cache hground).1.1
      have halike : Alike m.IsDepth (fun _ => False) (fun c c' => c.Within c' ∧ m.Grounded c')
          (f.run m.quiet (attach (m.answer room)) inputs part)
          (f.run m.quiet (attach (m.answer room)) inputs cache) :=
        Routine.run_alike (fun bus address c c' hc => ih hc.2 bus address hc.1) _ _ ⟨h, hground⟩
      rw [answer_succ_miss hf hfind] at hkept ⊢
      rw [answer_succ_miss hf hmiss]
      generalize f.run m.quiet (attach (m.answer room)) inputs part = x at halike ⊢
      generalize f.run m.quiet (attach (m.answer room)) inputs cache = y at halike hkept ⊢
      cases halike with
      | ok hc =>
        obtain ⟨rfl, hwithin, -⟩ := hc
        exact .ok ⟨hwithin.insert, hkept⟩
      | both hsame hc => exact .both hsame hc
      | left hdepth => exact .left hdepth
      | right himpossible => exact himpossible.elim

/-- A larger cache changes a call only where the depth limit is hit without it. -/
theorem call_alike (hground : m.Grounded cache) (id : Nat) (inputs : List Nat)
    (h : part.Within cache) :
    Alike m.IsDepth (fun _ => False) (fun c c' => c.Within c' ∧ m.Grounded c')
      (m.call id inputs part) (m.call id inputs cache) := by
  cases hf : m.routines[id]? with
  | none =>
    rw [call_unknown hf, call_unknown hf]
    exact .error ⟨h, hground⟩
  | some f =>
    rw [call_eq_run hf, call_eq_run hf]
    exact Routine.run_alike (fun bus address c c' hc => answer_alike hc.2 _ bus address hc.1) _ _
      ⟨h, hground⟩

end Parts

/-! ## Calls after other requests -/

namespace Grounded

/-- A call that does not hit the depth limit with an empty cache gives the same with a grounded
one. -/
theorem given_call (h : m.Grounded cache)
    (hfresh : given (m.call id inputs []) ≠ .error (.callDepth m.config.maxDepth)) :
    given (m.call id inputs cache) = given (m.call id inputs []) := by
  have halike := call_alike h id inputs (Cache.nil_within cache)
  generalize m.call id inputs [] = x at halike hfresh ⊢
  generalize m.call id inputs cache = y at halike ⊢
  cases halike with
  | ok hc => exact congrArg Except.ok hc.1.symm
  | both hsame _ => exact congrArg Except.error hsame.symm
  | left hdepth => exact absurd (congrArg Except.error hdepth) hfresh
  | right himpossible => exact himpossible.elim

/-- What a call gives with a grounded cache it gives with an empty one, up to the depth limit. -/
theorem given_fresh (h : m.Grounded cache)
    (hcall : given (m.call id inputs cache) = .ok execution) :
    given (m.call id inputs []) = .ok execution ∨
      given (m.call id inputs []) = .error (.callDepth m.config.maxDepth) := by
  have halike := call_alike h id inputs (Cache.nil_within cache)
  generalize m.call id inputs [] = x at halike ⊢
  generalize m.call id inputs cache = y at halike hcall
  cases halike with
  | ok hc =>
    obtain ⟨rfl, -⟩ := hc
    exact .inl hcall
  | both => cases hcall
  | left hdepth => exact .inr (congrArg Except.error hdepth)
  | right himpossible => exact himpossible.elim

/-- Rows that do not hit the depth limit with an empty cache give what each of them gives then. -/
theorem given_callRows (h : m.Grounded cache) {rows : List (List Nat)}
    (hfresh : ∀ row ∈ rows, given (m.call id row []) ≠
      .error (.callDepth m.config.maxDepth)) :
    given (m.callRows id rows cache) = rows.mapM fun row => given (m.call id row []) := by
  induction rows generalizing cache with
  | nil => rfl
  | cons row rest ih =>
    have hrest := ih (call_grounded id row h) fun row hr => hfresh row (List.mem_cons_of_mem _ hr)
    rw [given_callRows_cons, List.mapM_cons, h.given_call (hfresh row List.mem_cons_self), hrest]

/-- Each row of a table that succeeds gives what it gives with an empty cache, up to the depth
limit. -/
theorem given_rows_fresh (h : m.Grounded cache) {rows : List (List Nat)}
    {executions : List Execution} (hrows : given (m.callRows id rows cache) = .ok executions) :
    List.Forall₂ (fun row execution => given (m.call id row []) = .ok execution ∨
      given (m.call id row []) = .error (.callDepth m.config.maxDepth)) rows executions := by
  induction rows generalizing cache executions with
  | nil =>
    cases hrows
    exact .nil
  | cons row rest ih =>
    rw [given_callRows_cons] at hrows
    obtain ⟨first, hfirst, hrows⟩ := except_bind_ok.1 hrows
    obtain ⟨others, hothers, hrows⟩ := except_bind_ok.1 hrows
    cases hrows
    exact .cons (h.given_fresh hfirst) (ih (call_grounded id row h) hothers)

end Grounded

/-- **The cache is transparent.** Whatever a machine was asked for before, every answer in its cache
is what evaluation without a cache and without a depth limit gives. A call gives what it gives with
an empty cache, unless that hits the depth limit; and if it succeeds, it gives the same with an
empty cache or hits the depth limit there. So rows are answered one by one, whatever their order. -/
theorem history_transparent (m : Machine) (requests : List Request) :
    (∀ id inputs answer, (m.history requests).find? ⟨id, inputs⟩ = some answer →
      m.Settles id inputs answer) ∧
    (∀ id inputs, given (m.call id inputs []) ≠ .error (.callDepth m.config.maxDepth) →
      given (m.call id inputs (m.history requests)) = given (m.call id inputs [])) ∧
    (∀ id inputs execution, given (m.call id inputs (m.history requests)) = .ok execution →
      given (m.call id inputs []) = .ok execution ∨
        given (m.call id inputs []) = .error (.callDepth m.config.maxDepth)) ∧
    (∀ id rows,
      (∀ row ∈ rows, given (m.call id row []) ≠ .error (.callDepth m.config.maxDepth)) →
      given (m.callRows id rows (m.history requests)) =
        rows.mapM fun row => given (m.call id row [])) ∧
    ∀ id rows executions, given (m.callRows id rows (m.history requests)) = .ok executions →
      List.Forall₂ (fun row execution => given (m.call id row []) = .ok execution ∨
        given (m.call id row []) = .error (.callDepth m.config.maxDepth)) rows executions := by
  have hground := history_grounded m requests
  exact ⟨fun id inputs answer => hground.settles, fun id inputs => hground.given_call,
    fun id inputs execution => hground.given_fresh, fun id rows => hground.given_callRows,
    fun id rows executions => hground.given_rows_fresh⟩

/-- Counting on from ninety-three caches both nested answers; counting again uses them. -/
theorem history_transparent_counting :
    let cache := counting.history [.call 0 [93]]
    cache.find? ⟨1, [93]⟩ = some (some [94]) ∧
      cache.find? ⟨1, [94]⟩ = some (some [95]) ∧
    counting.Settles 1 [94] (some [95]) ∧
    given (counting.call 0 [93] cache) = .ok ⟨.returned, [95], 3, []⟩ ∧
    given (counting.callRows 0 [[93], [92]] cache) =
      .ok [⟨.returned, [95], 3, []⟩, ⟨.returned, [94], 3, []⟩] := by
  intro cache
  have hfind : cache.find? ⟨1, [94]⟩ = some (some [95]) := by decide +kernel
  have hfresh : given (counting.call 0 [93] []) = .ok ⟨.returned, [95], 3, []⟩ := by
    decide +kernel
  have hother : given (counting.call 0 [92] []) = .ok ⟨.returned, [94], 3, []⟩ := by
    decide +kernel
  obtain ⟨hsettles, hcall, -, hrows, -⟩ := history_transparent counting [.call 0 [93]]
  refine ⟨by decide +kernel, hfind, hsettles 1 [94] _ hfind, ?_, ?_⟩
  · rw [hcall 0 [93] (by rw [hfresh]; nofun), hfresh]
  · rw [hrows 0 [[93], [92]] ?_]
    · simp only [List.mapM_cons, hfresh, hother, List.mapM_nil]
      rfl
    · intro row hrow
      rcases List.mem_pair.1 hrow with rfl | rfl
      · rw [hfresh]
        nofun
      · rw [hother]
        nofun

end Machine

end LimbMachine
