import LimbMachine.Exec.Boundary
import LimbMachine.Proofs.Success

/-!
# Two computations side by side

A computation gives a value or an error (`given`), and it leaves a memory in either case
(`finalState`). Two of them are compared by `Related`: their values are in relation with the
memories that they leave, or their errors go together, or one of them has an error that is excused.
An excused error says nothing about the other computation.

Where the same value or the same error is asked for, the relation is `Same`; it is established part
by part for sequences, changes of the state, answers of a boundary and whole transactions. `Alike`
and `Matched` are two forms of it.
-/

namespace LimbMachine

/-! ## Results -/

section Results

variable {ε σ α β : Type}

/-- What a computation gives, without the memory it leaves. -/
def given : EStateM.Result RunError σ α → Except RunError α
  | .ok a _ => .ok a
  | .error e _ => .error e

/-- The memory that is left, whether or not the computation succeeded. -/
def finalState : EStateM.Result ε σ α → σ
  | .ok _ s => s
  | .error _ s => s

/-- A sequence gives what its second part gives in the memory that its first part leaves. -/
theorem given_bind (x : EStateM RunError σ α) (next : α → EStateM RunError σ β) (m : σ) :
    given ((x >>= next) m) = given (x m) >>= fun a => given (next a (finalState (x m))) := by
  cases h : x m with
  | ok a m₁ =>
    rw [estate_bind_of_ok h]
    rfl
  | error e m₁ =>
    rw [estate_bind_of_error h]
    rfl

/-- What both parts of a sequence keep, the sequence keeps. -/
theorem finalState_bind {Inv : σ → Prop} {x : EStateM ε σ α} {next : α → EStateM ε σ β}
    {m : σ} (hx : Inv (finalState (x m)))
    (hnext : ∀ a m₁, Inv m₁ → Inv (finalState (next a m₁))) :
    Inv (finalState ((x >>= next) m)) := by
  cases h : x m with
  | ok a m₁ =>
    rw [h] at hx
    rw [estate_bind_of_ok h]
    exact hnext a m₁ hx
  | error e m₁ =>
    rw [h] at hx
    rw [estate_bind_of_error h]
    exact hx

end Results

/-! ## Relations on results -/

/-- Which errors of two computations go together, and which of one of them are excused. -/
structure Faults where
  both : RunError → RunError → Prop
  left : RunError → Prop
  right : RunError → Prop

/-- The same error goes together. -/
def Faults.same (left right : RunError → Prop) : Faults := ⟨Eq, left, right⟩

/-- Two computations give values in relation, or errors that go together or are excused. After
errors that go together the memories are those to be `kept`. -/
inductive Related {σ τ α β : Type} (faults : Faults) (kept : σ → τ → Prop)
    (P : α → σ → β → τ → Prop) :
    EStateM.Result RunError σ α → EStateM.Result RunError τ β → Prop
  | ok {a : α} {m : σ} {b : β} {m' : τ} (h : P a m b m') :
    Related faults kept P (.ok a m) (.ok b m')
  | both {e e' : RunError} {m : σ} {m' : τ} (h : faults.both e e') (hm : kept m m') :
    Related faults kept P (.error e m) (.error e' m')
  | left {e : RunError} {m : σ} {result' : EStateM.Result RunError τ β} (h : faults.left e) :
    Related faults kept P (.error e m) result'
  | right {result : EStateM.Result RunError σ α} {e' : RunError} {m' : τ} (h : faults.right e') :
    Related faults kept P result (.error e' m')

namespace Related

variable {σ τ α β α' β' : Type} {faults : Faults} {kept : σ → τ → Prop}
  {P : α → σ → β → τ → Prop} {Q : α' → σ → β' → τ → Prop} {m : σ} {m' : τ}

/-- The second parts of two sequences may use what the first parts have established. -/
theorem bind {x : EStateM RunError σ α} {x' : EStateM RunError τ β}
    {next : α → EStateM RunError σ α'} {next' : β → EStateM RunError τ β'}
    (h : Related faults kept P (x m) (x' m'))
    (hnext : ∀ a m₁ b m₁', P a m₁ b m₁' →
      Related faults kept Q (next a m₁) (next' b m₁')) :
    Related faults kept Q ((x >>= next) m) ((x' >>= next') m') := by
  show Related faults kept Q (EStateM.bind x next m) (EStateM.bind x' next' m')
  unfold EStateM.bind
  generalize x m = y at h ⊢
  generalize x' m' = y' at h ⊢
  cases h with
  | ok h => exact hnext _ _ _ _ h
  | both h hm => exact .both h hm
  | left h => exact .left h
  | right h => exact .right h

variable {result : EStateM.Result RunError σ α} {result' : EStateM.Result RunError τ β}

theorem imp {kept' : σ → τ → Prop} {P' : α → σ → β → τ → Prop}
    (h : Related faults kept P result result') (hkept : ∀ m m', kept m m' → kept' m m')
    (himp : ∀ a m b m', P a m b m' → P' a m b m') : Related faults kept' P' result result' := by
  cases h with
  | ok h => exact .ok (himp _ _ _ _ h)
  | both h hm => exact .both h (hkept _ _ hm)
  | left h => exact .left h
  | right h => exact .right h

end Related

/-- The same value, with memories in the relation that the value calls for, or the same error, with
the memories to be kept. -/
def Same {σ τ α : Type} (left right : RunError → Prop) (kept : σ → τ → Prop)
    (R : α → σ → τ → Prop) :
    EStateM.Result RunError σ α → EStateM.Result RunError τ α → Prop :=
  Related (.same left right) kept fun a m b m' => a = b ∧ R a m m'

/-- The same value or the same error, with memories in relation, unless one of the results is an
error that is excused. -/
abbrev Alike {σ τ α : Type} (left right : RunError → Prop) (R : σ → τ → Prop) :
    EStateM.Result RunError σ α → EStateM.Result RunError τ α → Prop :=
  Same left right R fun _ => R

/-- The same error, or the same value with memories in the relation that the value calls for. -/
abbrev Matched {σ τ α : Type} (R : α → σ → τ → Prop) :
    EStateM.Result RunError σ α → EStateM.Result RunError τ α → Prop :=
  Same (fun _ => False) (fun _ => False) (fun _ _ => True) R

namespace Same

variable {σ τ α β : Type} {left right : RunError → Prop} {kept : σ → τ → Prop}
  {R : α → σ → τ → Prop} {m : σ} {m' : τ} {result : EStateM.Result RunError σ α}
  {result' : EStateM.Result RunError τ α}

theorem ok {a : α} (h : R a m m') : Same left right kept R (.ok a m) (.ok a m') :=
  Related.ok ⟨rfl, h⟩

theorem error {e : RunError} (h : kept m m') : Same left right kept R (.error e m) (.error e m') :=
  Related.both rfl h

theorem bind {x : EStateM RunError σ α} {x' : EStateM RunError τ α}
    {next : α → EStateM RunError σ β} {next' : α → EStateM RunError τ β}
    {T : β → σ → τ → Prop} (h : Same left right kept R (x m) (x' m'))
    (hnext : ∀ a m₁ m₁', R a m₁ m₁' →
      Same left right kept T (next a m₁) (next' a m₁')) :
    Same left right kept T ((x >>= next) m) ((x' >>= next') m') := by
  refine Related.bind h fun a m₁ b m₁' hab => ?_
  obtain ⟨rfl, hm⟩ := hab
  exact hnext a m₁ m₁' hm

theorem imp {kept' : σ → τ → Prop} {R' : α → σ → τ → Prop}
    (h : Same left right kept R result result') (hkept : ∀ m m', kept m m' → kept' m m')
    (himp : ∀ a m m', R a m m' → R' a m m') : Same left right kept' R' result result' :=
  Related.imp h hkept fun a m _ m' hab => ⟨hab.1, himp a m m' hab.2⟩

section Unexcused

variable (h : Same (fun _ => False) (fun _ => False) kept R result result')

include h

theorem given_eq : given result = given result' := by
  cases h with
  | ok h => exact congrArg Except.ok h.1
  | both h hm => exact congrArg Except.error h
  | left h => exact h.elim
  | right h => exact h.elim

/-- Where a value is given, the memories that are left are in the relation that goes with it. -/
theorem related {a : α} (hgiven : given result = .ok a) :
    R a (finalState result) (finalState result') := by
  cases h with
  | ok h =>
    cases hgiven
    exact h.2
  | both h hm => cases hgiven
  | left h => exact h.elim
  | right h => exact h.elim

end Unexcused

end Same

/-! ## Frames -/

namespace Frame

variable {σ τ α : Type} {left right : RunError → Prop} {kept : Frame σ → Frame τ → Prop}
  {s s' : State} {m : σ} {m' : τ}

/-- A change of the state alone keeps the memory of the boundary. -/
theorem same_onState {R : α → Frame σ → Frame τ → Prop} {x x' : Update α}
    (h : Same left right (fun s s' => kept ⟨s, m⟩ ⟨s', m'⟩)
      (fun a s s' => R a ⟨s, m⟩ ⟨s', m'⟩) (x s) (x' s')) :
    Same left right kept R (onState x ⟨s, m⟩) (onState x' ⟨s', m'⟩) := by
  unfold onState
  generalize x s = y at h ⊢
  generalize x' s' = y' at h ⊢
  cases h with
  | ok h => exact Related.ok h
  | both h hm => exact Related.both h hm
  | left h => exact Related.left h
  | right h => exact Related.right h

/-- A change of the memory alone keeps the state of the routine. -/
theorem same_onMemory {R : α → Frame σ → Frame τ → Prop} {x : EStateM RunError σ α}
    {x' : EStateM RunError τ α}
    (h : Same left right (fun m m' => kept ⟨s, m⟩ ⟨s', m'⟩)
      (fun a m m' => R a ⟨s, m⟩ ⟨s', m'⟩) (x m) (x' m')) :
    Same left right kept R (onMemory x ⟨s, m⟩) (onMemory x' ⟨s', m'⟩) := by
  unfold onMemory
  generalize x m = y at h ⊢
  generalize x' m' = y' at h ⊢
  cases h with
  | ok h => exact Related.ok h
  | both h hm => exact Related.both h hm
  | left h => exact Related.left h
  | right h => exact Related.right h

/-- Two transactions make the same request. Where it is answered alike, with frames in relation `A`,
they are compared by what becomes of those frames: nothing if the request was rejected, and
otherwise the lines that are answered are stored in both. -/
theorem same_transact {A : Frame σ → Frame τ → Prop}
    {R : Bool → Frame σ → Frame τ → Prop} {io : Boundary σ} {io' : Boundary τ} {bus : Nat}
    {address data : List RegId} (hrequest : address.map s.load = address.map s'.load)
    (hread : Same left right (fun m m' => kept ⟨s, m⟩ ⟨s', m'⟩)
      (fun _ m m' => A ⟨s, m⟩ ⟨s', m'⟩) (io.read bus (address.map s.load) m)
        (io'.read bus (address.map s.load) m'))
    (hkept : ∀ frame frame', A frame frame' → kept frame frame')
    (hrejected : ∀ frame frame', A frame frame' → R false frame frame')
    (hstored : ∀ response frame frame', response.length = data.length → A frame frame' →
      Same left right kept (fun _ => R true) (onState (State.storeEach (data.zip response)) frame)
        (onState (State.storeEach (data.zip response)) frame')) :
    Same left right kept R (transact io bus address data ⟨s, m⟩)
      (transact io' bus address data ⟨s', m'⟩) := by
  unfold transact
  rw [estate_get_bind, estate_get_bind, ← hrequest]
  refine (same_onMemory (R := fun _ => A) hread).bind fun answer frame frame' h => ?_
  cases answer with
  | none => exact .ok (hrejected frame frame' h)
  | some response =>
    by_cases hlen : response.length = data.length
    · simp only [ne_eq, hlen, not_true_eq_false, if_false]
      exact (hstored response frame frame' hlen h).bind fun _ _ _ hr => .ok hr
    · simp only [ne_eq, hlen, not_false_eq_true, if_true]
      exact .error (hkept frame frame' h)

end Frame

end LimbMachine
