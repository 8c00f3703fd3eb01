import LimbMachine.Machine
import LimbMachine.Proofs.Exec.Boundaries

/-!
# What a machine is asked for

A machine keeps its cache from one request to the next. `Machine.history` is the cache that a list
of requests leaves, whatever each of them ended with: what was cached before an error stays. What
every request keeps holds of any history (`Machine.history_induction`).
-/

namespace LimbMachine

/-- What a machine can be asked for from outside. -/
inductive Request where
  /-- One run of a routine. -/
  | call (id : Nat) (inputs : List Nat)
  /-- A run of a routine on each row of inputs, in order, up to the first error. -/
  | rows (id : Nat) (rows : List (List Nat))
  /-- An answer of the machine as a boundary. -/
  | read (bus : Nat) (address : List Nat)

namespace Machine

/-- The cache after a request. -/
def after (m : Machine) (cache : Cache) : Request → Cache
  | .call id inputs => finalState (m.call id inputs cache)
  | .rows id rows => finalState (m.callRows id rows cache)
  | .read bus address => finalState (m.boundary.read bus address cache)

/-- The cache after some requests to a machine that starts with an empty one. -/
def history (m : Machine) (requests : List Request) : Cache := requests.foldl m.after []

variable {m : Machine} {id : Nat} {Inv : Cache → Prop} {cache : Cache}

theorem call_unknown (h : m.routines[id]? = none) (inputs : List Nat) (cache : Cache) :
    m.call id inputs cache = .error (.unknownBus id) cache := by
  unfold call
  rw [h]
  rfl

theorem call_eq_run {f : Routine} (h : m.routines[id]? = some f) (inputs : List Nat)
    (cache : Cache) :
    m.call id inputs cache = f.run m.config (attach (m.answer m.config.maxDepth)) inputs cache := by
  unfold call
  rw [h]
  rfl

theorem given_callRows_cons (row : List Nat) (rest : List (List Nat)) (cache : Cache) :
    given (m.callRows id (row :: rest) cache) = (do
      let first ← given (m.call id row cache)
      let others ← given (m.callRows id rest (finalState (m.call id row cache)))
      return first :: others) := by
  rw [callRows, given_bind]
  simp only [given_bind]
  rfl

/-- What a run on each of the rows keeps, the runs in order keep. -/
theorem finalState_callRows {rows : List (List Nat)}
    (hcall : ∀ row ∈ rows, ∀ cache, Inv cache → Inv (finalState (m.call id row cache)))
    (h : Inv cache) : Inv (finalState (m.callRows id rows cache)) := by
  induction rows generalizing cache with
  | nil => exact h
  | cons row rest ih =>
    refine finalState_bind (hcall row List.mem_cons_self cache h) fun first cache₁ h₁ => ?_
    refine finalState_bind ?_ fun _ _ h₂ => h₂
    exact ih (fun row hrow => hcall row (List.mem_cons_of_mem _ hrow)) h₁

/-- What every request keeps holds of the cache after any number of them. -/
theorem history_induction {requests : List Request} (hnil : Inv [])
    (hstep : ∀ request ∈ requests, ∀ cache, Inv cache → Inv (m.after cache request)) :
    Inv (m.history requests) := by
  unfold history
  generalize ([] : Cache) = cache at hnil
  induction requests generalizing cache with
  | nil => exact hnil
  | cons request rest ih =>
    apply ih
    · exact fun r hr => hstep r (List.mem_cons_of_mem _ hr)
    · exact hstep request List.mem_cons_self cache hnil

end Machine

end LimbMachine
