import LimbMachine.Split.Pool
import Mathlib.Data.List.Forall2

/-!
# When a computation succeeds

Checks are `Except` computations and everything that stores or allocates is an `EStateM`
computation. A sequence succeeds exactly when its parts do, one after the other; these lemmas peel
a sequence apart without unfolding the monads.
-/

namespace LimbMachine

section Checks

variable {ε ε' α β : Type}

theorem except_bind_ok {x : Except ε α} {f : α → Except ε β} {b : β} :
    (x >>= f) = .ok b ↔ ∃ a, x = .ok a ∧ f a = .ok b := by
  cases x with
  | error e => simp [bind, Except.bind]
  | ok a => simp [bind, Except.bind]

theorem except_ok_bind (a : α) (f : α → Except ε β) : (Except.ok a >>= f) = f a := rfl

/-- A check that comes first has to pass. -/
theorem except_check_ok {x : Except ε Unit} {f : Unit → Except ε β} {b : β} :
    (x >>= f) = .ok b ↔ x = .ok () ∧ f () = .ok b := by
  rw [except_bind_ok]
  exact ⟨fun ⟨_, hx, hf⟩ => ⟨hx, hf⟩, fun ⟨hx, hf⟩ => ⟨(), hx, hf⟩⟩

theorem except_guard_ok {c : Prop} [Decidable c] {e : ε} {x : Except ε α} {a : α} :
    (if c then .error e else x) = .ok a ↔ ¬ c ∧ x = .ok a := by
  split <;> simp [*]

theorem except_map_ok {x : Except ε α} {f : α → β} {b : β} :
    x.map f = .ok b ↔ ∃ a, x = .ok a ∧ f a = b := by
  cases x with
  | error e => simp [Except.map]
  | ok a => simp [Except.map]

theorem except_mapError_ok {x : Except ε α} {f : ε → ε'} {a : α} :
    x.mapError f = .ok a ↔ x = .ok a := by
  cases x with
  | error e => simp [Except.mapError]
  | ok a => simp [Except.mapError]

/-- A check of every element succeeds when it does for each of them. -/
theorem except_forM_ok {l : List α} {f : α → Except ε Unit} :
    l.forM f = .ok () ↔ ∀ a ∈ l, f a = .ok () := by
  induction l with
  | nil => simp [List.forM, pure, Except.pure]
  | cons a l ih =>
    show (f a >>= fun _ => l.forM f) = .ok () ↔ _
    rw [except_bind_ok]
    simp only [List.mem_cons, forall_eq_or_imp]
    constructor
    · rintro ⟨u, ha, hl⟩
      exact ⟨ha, ih.1 hl⟩
    · rintro ⟨ha, hl⟩
      exact ⟨(), ha, ih.2 hl⟩

/-- A list of results is one result for each element, in order. -/
theorem except_mapM_ok {l : List α} {f : α → Except ε β} {bs : List β} :
    l.mapM f = .ok bs ↔ List.Forall₂ (fun a b => f a = .ok b) l bs := by
  induction l generalizing bs with
  | nil =>
    simp only [List.mapM_nil, pure, Except.pure, Except.ok.injEq, List.forall₂_nil_left_iff]
    exact eq_comm
  | cons a l ih =>
    rw [List.mapM_cons, except_bind_ok]
    constructor
    · rintro ⟨b, hb, h⟩
      obtain ⟨bs', hbs', h⟩ := except_bind_ok.1 h
      cases h
      exact .cons hb (ih.1 hbs')
    · intro h
      cases h with
      | cons hb hbs => exact ⟨_, hb, except_bind_ok.2 ⟨_, ih.2 hbs, rfl⟩⟩

theorem except_mapM_succeeds {l : List α} {f : α → Except ε β}
    (h : ∀ a ∈ l, ∃ b, f a = .ok b) : ∃ bs, l.mapM f = .ok bs := by
  induction l with
  | nil => exact ⟨[], except_mapM_ok.2 .nil⟩
  | cons a l ih =>
    rw [List.forall_mem_cons] at h
    obtain ⟨b, hb⟩ := h.1
    obtain ⟨bs, hbs⟩ := ih h.2
    exact ⟨b :: bs, except_mapM_ok.2 (.cons hb (except_mapM_ok.1 hbs))⟩

/-- What was mapped one by one has a counterpart for each. -/
theorem exists_of_forall₂ {R : α → β → Prop} {as : List α} {bs : List β} {a : α}
    (h : List.Forall₂ R as bs) (ha : a ∈ as) : ∃ b ∈ bs, R a b := by
  obtain ⟨i, hi, rfl⟩ := List.getElem_of_mem ha
  have hi' : i < bs.length := h.length_eq ▸ hi
  exact ⟨bs[i], List.getElem_mem hi', (List.forall₂_iff_get.1 h).2 i hi hi'⟩

end Checks

section Updates

variable {ε σ α β : Type}

theorem estate_bind_ok {x : EStateM ε σ α} {f : α → EStateM ε σ β} {s s' : σ} {b : β} :
    (x >>= f) s = .ok b s' ↔ ∃ a s₁, x s = .ok a s₁ ∧ f a s₁ = .ok b s' := by
  show EStateM.bind x f s = _ ↔ _
  unfold EStateM.bind
  cases x s with
  | error e s₁ => simp
  | ok a s₁ => simp

/-- The sequence goes on from the state that its first part leaves. -/
theorem estate_bind_of_ok {x : EStateM ε σ α} {f : α → EStateM ε σ β}
    {s s₁ : σ} {a : α} (h : x s = .ok a s₁) : (x >>= f) s = f a s₁ := by
  show EStateM.bind x f s = _
  unfold EStateM.bind
  rw [h]

theorem estate_bind_of_error {x : EStateM ε σ α} {f : α → EStateM ε σ β}
    {s s₁ : σ} {e : ε} (h : x s = .error e s₁) : (x >>= f) s = .error e s₁ := by
  show EStateM.bind x f s = _
  unfold EStateM.bind
  rw [h]

/-- A sequence depends on its first part only through what comes of it. -/
theorem estate_bind_congr {x y : EStateM ε σ α} {f : α → EStateM ε σ β} {s : σ}
    (h : x s = y s) : (x >>= f) s = (y >>= f) s := by
  simp only [bind, EStateM.bind, h]

theorem estate_get_bind {f : σ → EStateM ε σ β} {s : σ} : (get >>= f) s = f s s := rfl

theorem estate_pure_ok {a b : α} {s s' : σ} :
    (pure a : EStateM ε σ α) s = .ok b s' ↔ a = b ∧ s = s' := by
  show EStateM.Result.ok a s = .ok b s' ↔ _
  simp

/-- Where the update succeeds, its value is one of `P`. -/
def Gives (P : α → Prop) (x : EStateM ε σ α) : Prop := ∀ s a s₁, x s = .ok a s₁ → P a

theorem Gives.of_ok {P : α → Prop} {x : EStateM ε σ α} {s s₁ : σ} {a : α} (hx : Gives P x)
    (h : x s = .ok a s₁) : P a := hx s a s₁ h

theorem Gives.pure {P : α → Prop} {a : α} (ha : P a) : Gives P (pure a : EStateM ε σ α) := by
  intro s b s₁ h
  obtain ⟨rfl, -⟩ := estate_pure_ok.1 h
  exact ha

/-- The value of a sequence is that of its last part. -/
theorem Gives.bind {P : β → Prop} {x : EStateM ε σ α} {f : α → EStateM ε σ β}
    (hf : ∀ a, Gives P (f a)) : Gives P (x >>= f) := by
  intro s b s₁ h
  obtain ⟨a, s₂, -, h⟩ := estate_bind_ok.1 h
  exact (hf a).of_ok h

theorem Gives.ite {P : α → Prop} {c : Prop} [Decidable c] {x y : EStateM ε σ α}
    (hx : Gives P x) (hy : Gives P y) : Gives P (if c then x else y) := by
  split
  · exact hx
  · exact hy

end Updates

end LimbMachine
