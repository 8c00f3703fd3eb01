import LimbMachine.Proofs.Related
import Mathlib.Order.Defs.Unbundled

/-!
# How a computation fails

A sequence fails where one of its parts does, once the parts before it have succeeded. `FailsOnly`
and `RaisesOnly` bound the errors of checks and of updates; they are shown part by part. An update
that fails leaves a state too: `Keeps` relates whatever is left to the state before.
-/

namespace LimbMachine

section Checks

variable {ε ε' α β : Type} {P : ε → Prop}

/-- Every error of the check is one of `P`. -/
def FailsOnly (P : ε → Prop) (x : Except ε α) : Prop := ∀ e, x = .error e → P e

theorem FailsOnly.of_ok {x : Except ε α} {a : α} (h : x = .ok a) : FailsOnly P x := by
  intro e he
  rw [h] at he
  cases he

theorem FailsOnly.guard {c : Prop} [Decidable c] {e : ε} {x : Except ε α} (he : P e)
    (hx : FailsOnly P x) : FailsOnly P (if c then .error e else x) := by
  split
  · intro e' heq
    cases heq
    exact he
  · exact hx

theorem FailsOnly.bind {x : Except ε α} {f : α → Except ε β} (hx : FailsOnly P x)
    (hf : ∀ a, x = .ok a → FailsOnly P (f a)) : FailsOnly P (x >>= f) := by
  intro e he
  cases x with
  | error e' =>
    cases he
    exact hx _ rfl
  | ok a => exact hf a rfl e he

theorem FailsOnly.mapError {Q : ε' → Prop} {x : Except ε α} {f : ε → ε'}
    (hx : FailsOnly P x) (hf : ∀ e, P e → Q (f e)) : FailsOnly Q (x.mapError f) := by
  intro e he
  cases x with
  | error e' =>
    cases he
    exact hf _ (hx _ rfl)
  | ok a => cases he

theorem FailsOnly.forM {l : List α} {f : α → Except ε Unit}
    (h : ∀ a ∈ l, FailsOnly P (f a)) : FailsOnly P (l.forM f) := by
  induction l with
  | nil => exact .of_ok rfl
  | cons a l ih =>
    show FailsOnly P (f a >>= fun _ => l.forM f)
    exact (h a List.mem_cons_self).bind fun _ _ => ih fun b hb => h b (List.mem_cons_of_mem a hb)

end Checks

section Updates

variable {ε σ α β : Type} {P : ε → Prop}

/-- The result is no error or one of `P`. -/
def RaisesOnly (P : ε → Prop) (result : EStateM.Result ε σ α) : Prop :=
  ∀ e s, result = .error e s → P e

theorem RaisesOnly.of_ok {result : EStateM.Result ε σ α} {a : α} {s : σ}
    (h : result = .ok a s) : RaisesOnly P result := by
  intro e s' he
  rw [h] at he
  cases he

theorem RaisesOnly.bind {x : EStateM ε σ α} {f : α → EStateM ε σ β} {s : σ}
    (hx : RaisesOnly P (x s)) (hf : ∀ a s₁, x s = .ok a s₁ → RaisesOnly P (f a s₁)) :
    RaisesOnly P ((x >>= f) s) := by
  intro e s' he
  cases h : x s with
  | error e' s₁ =>
    rw [estate_bind_of_error h] at he
    cases he
    exact hx _ _ h
  | ok a s₁ =>
    rw [estate_bind_of_ok h] at he
    exact hf a s₁ h e s' he

theorem RaisesOnly.mono {Q : ε → Prop} {result : EStateM.Result ε σ α}
    (h : RaisesOnly P result) (hPQ : ∀ e, P e → Q e) : RaisesOnly Q result :=
  fun e s heq => hPQ e (h e s heq)

theorem RaisesOnly.ite {c : Prop} [Decidable c] {x y : EStateM ε σ α}
    {s : σ} (hx : c → RaisesOnly P (x s)) (hy : ¬ c → RaisesOnly P (y s)) :
    RaisesOnly P ((if c then x else y) s) := by
  split
  · exact hx ‹c›
  · exact hy ‹¬ c›

theorem RaisesOnly.throw {e : ε} {f : α → EStateM ε σ β} {s : σ}
    (he : P e) : RaisesOnly P ((MonadExcept.throw e >>= f : EStateM ε σ β) s) := by
  intro e' s' heq
  cases heq
  exact he

end Updates

theorem RaisesOnly.asking {α : Type} {P : SplitError → Prop} {pool : Pool}
    {question : Pool → Except SplitError α} (h : FailsOnly P (question pool)) :
    RaisesOnly P (Pool.asking question pool) := by
  intro e s heq
  unfold Pool.asking at heq
  cases hq : question pool with
  | ok a =>
    rw [hq] at heq
    cases heq
  | error e' =>
    rw [hq] at heq
    cases heq
    exact h e hq

/-! ## What is left -/

section Endings

variable {ε σ α β : Type} {R : σ → σ → Prop}

/-- Whatever comes out of the update, the state it leaves is related to the one before. -/
def Keeps (R : σ → σ → Prop) (x : EStateM ε σ α) : Prop := ∀ s, R s (finalState (x s))

theorem Keeps.of_ok {x : EStateM ε σ α} {s s₁ : σ} {a : α} (hx : Keeps R x)
    (h : x s = .ok a s₁) : R s s₁ := by
  have hleft := hx s
  rwa [h] at hleft

variable [IsPreorder σ R]

theorem Keeps.pure (a : α) : Keeps R (pure a : EStateM ε σ α) := fun s => refl_of R s

theorem Keeps.throw (e : ε) : Keeps R (throw e : EStateM ε σ α) := fun s => refl_of R s

theorem Keeps.get : Keeps R (get : EStateM ε σ σ) := fun s => refl_of R s

theorem Keeps.bind {x : EStateM ε σ α} {f : α → EStateM ε σ β} (hx : Keeps R x)
    (hf : ∀ a, Keeps R (f a)) : Keeps R (x >>= f) := by
  intro s
  have hleft := hx s
  cases h : x s with
  | error e s₁ =>
    rw [h] at hleft
    rw [estate_bind_of_error h]
    exact hleft
  | ok a s₁ =>
    rw [h] at hleft
    rw [estate_bind_of_ok h]
    exact trans_of R hleft (hf a s₁)

omit [IsPreorder σ R] in
theorem Keeps.ite {c : Prop} [Decidable c] {x y : EStateM ε σ α} (hx : Keeps R x)
    (hy : Keeps R y) : Keeps R (if c then x else y) := by
  split
  · exact hx
  · exact hy

end Endings

end LimbMachine
