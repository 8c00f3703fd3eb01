import LimbMachine.Exec.Step
import LimbMachine.Proofs.Arith.Balance
import LimbMachine.Proofs.Exec.Storage
import Mathlib.Algebra.Order.BigOperators.Group.List
import Mathlib.Data.List.Nodup

/-!
# What a microcode does

A microcode that asks no bus has an `Effect`: some ids take given values and control goes
somewhere, both read off the widths and the values before. `Microcode.does_effect` says that
executing a `Runnable` microcode in a state that fits does exactly this, without an error and
whatever the boundary is. Whether a microcode is runnable depends on widths alone.
-/

namespace LimbMachine

/-! ## Values of polynomials -/

section Bounds

variable {rs : RegisterFile} {load : RegId → Nat}

theorem foldl_mul_le {f g : RegId → Nat} (ids : List RegId) (h : ∀ id ∈ ids, f id ≤ g id)
    {a b : Nat} (hab : a ≤ b) :
    ids.foldl (fun acc id => acc * f id) a ≤ ids.foldl (fun acc id => acc * g id) b := by
  induction ids generalizing a b with
  | nil => exact hab
  | cons id ids ih =>
    have hid := h id List.mem_cons_self
    exact ih (fun id' hid' => h id' (List.mem_cons_of_mem _ hid')) (Nat.mul_le_mul hab hid)

theorem Polynomial.eval_mono {f g : RegId → Nat} {p : Polynomial}
    (h : ∀ m ∈ p.terms, ∀ id ∈ m.vars, f id ≤ g id) : p.eval f ≤ p.eval g := by
  unfold eval
  refine List.sum_le_sum fun m hm => ?_
  exact foldl_mul_le m.vars (h m hm) (Nat.le_refl _)

theorem Monomial.eval_congr {f g : RegId → Nat} {m : Monomial}
    (h : ∀ id ∈ m.vars, f id = g id) : m.eval f = m.eval g :=
  Nat.le_antisymm (foldl_mul_le m.vars (fun id hid => (h id hid).le) (Nat.le_refl _))
    (foldl_mul_le m.vars (fun id hid => (h id hid).ge) (Nat.le_refl _))

theorem Polynomial.mem_registers {p : Polynomial} {id : RegId} :
    id ∈ p.registers ↔ ∃ m ∈ p.terms, id ∈ m.vars := by
  simp [registers]

/-- The value of a polynomial depends on the registers it mentions only. -/
theorem Polynomial.eval_congr {f g : RegId → Nat} {p : Polynomial}
    (h : ∀ id ∈ p.registers, f id = g id) : p.eval f = p.eval g := by
  refine congrArg List.sum (List.map_congr_left fun m hm => Monomial.eval_congr fun id hid => ?_)
  exact h id (mem_registers.2 ⟨m, hm, hid⟩)

theorem Polynomial.eval_le_maxValue (h : ∀ id, load id ≤ rs.maxOf id) (p : Polynomial) :
    p.eval load ≤ p.maxValue rs :=
  eval_mono fun _ _ id _ => h id

theorem Polynomial.eval_push (p : Polynomial) (m : Monomial) :
    (p.push m).eval load = p.eval load + m.eval load := by
  unfold push
  split
  · rename_i hzero
    have hm : ∀ ids : List RegId, ids.foldl (fun acc id => acc * load id) 0 = 0 := by
      intro ids
      induction ids with
      | nil => rfl
      | cons id ids ih => rw [List.foldl_cons, Nat.zero_mul, ih]
    rw [Monomial.eval, hzero, hm, Nat.add_zero]
  · simp [eval]

end Bounds

namespace Microcode

/-- The number a microcode spreads over its targets. -/
def value (rs : RegisterFile) (load : RegId → Nat) : Microcode → Nat
  | assign _ rhs => rhs.eval load
  | add _ sources constant => constant + (sources.map load).sum
  | mul _ sources constant => sources.foldl (fun acc id => acc * load id) constant
  | sub _ (minuend :: subtrahends) constant =>
    balance (load minuend) (constant + (subtrahends.map load).sum) (rs.widthOf minuend)
  | cast _ source _ => load source
  | _ => 0

theorem value_eq_eval {rs : RegisterFile} {load : RegId → Nat} {code : Microcode} {p : Polynomial}
    (h : code.polynomial? = some p) : code.value rs load = p.eval load := by
  cases code with
  | assign targets rhs =>
    cases h
    rfl
  | add targets sources constant =>
    cases h
    rw [Polynomial.eval_push, value]
    simp [Polynomial.sum, Polynomial.eval, Monomial.eval, Function.comp_def, Nat.add_comm]
  | mul targets sources constant =>
    cases h
    rw [Polynomial.eval_push, value]
    simp [Polynomial.zero, Polynomial.eval, Monomial.eval]
  | _ => cases h

end Microcode

/-- Targets that a number can be spread over: they are declared, none occurs twice, and their
total width is a size. -/
structure RegisterFile.Storable (rs : RegisterFile) (targets : List RegId) : Prop where
  nodup : targets.Nodup
  declared : ∀ id ∈ targets, id.isUsed = true → rs.declares id = true
  size : (rs.widths targets).sum < Word.modulus

/-- A subtraction whose difference and largest borrow fit its targets. -/
structure RegisterFile.Subtractable (rs : RegisterFile) (targets : List RegId) (minuend : RegId)
    (subtrahends : List RegId) (constant pivot : Nat) : Prop where
  nodup : targets.Nodup
  pivot_eq : subPivot targets rs (rs.widthOf minuend) = some pivot
  width_eq : (rs.widths (targets.take pivot)).sum = rs.widthOf minuend
  low : rs.Storable (targets.take pivot)
  high : rs.Storable (targets.drop pivot)
  borrow_lt : borrowsFor (constant + (subtrahends.map rs.maxOf).sum) (rs.widthOf minuend) <
    2 ^ (rs.widths (targets.drop pivot)).sum

namespace Microcode

/-- Every result fits its targets, whatever values the registers hold. -/
def Runnable (rs : RegisterFile) (code : Microcode) : Prop :=
  match code with
  | assign targets _ | add targets _ _ | mul targets _ _ =>
    rs.Storable targets ∧
      (code.polynomial?.getD .zero).maxValue rs < 2 ^ (rs.widths targets).sum
  | sub targets sources constant => ∃ minuend subtrahends pivot,
    sources = minuend :: subtrahends ∧ rs.Subtractable targets minuend subtrahends constant pivot
  | cast targets _ width => rs.Storable targets ∧ width ≤ (rs.widths targets).sum
  | div quotient remainder witness dividend divisor =>
    code.writes.Nodup ∧ (∀ id ∈ code.writes, rs.declares id = true) ∧
      rs.widthOf dividend ≤ rs.widthOf quotient ∧
      rs.widthOf divisor ≤ rs.widthOf remainder ∧
      (witness.isUsed = true → rs.widthOf divisor ≤ rs.widthOf witness)
  | skipIf left right _ _ =>
    (rs.widths left).sum < Word.modulus ∧ (rs.widths right).sum < Word.modulus
  | call _ targets _ => targets.Nodup ∧ ∀ id ∈ code.writes, rs.declares id = true
  | skip .. | jmp _ | ret | fail => True

/-- A sum or product is runnable if its largest value fits its targets. -/
theorem runnable_sum_iff {rs : RegisterFile} {code : Microcode} {p : Polynomial}
    (hp : code.polynomial? = some p) : code.Runnable rs ↔
      rs.Storable code.targets ∧ p.maxValue rs < 2 ^ (rs.widths code.targets).sum := by
  cases code with
  | assign targets rhs => cases hp; rfl
  | add targets sources constant => cases hp; rfl
  | mul targets sources constant => cases hp; rfl
  | _ => cases hp

/-- Whether a microcode asks no bus. -/
def isLocal : Microcode → Bool
  | call .. => false
  | _ => true

end Microcode

/-- Which ids take which values, and where control goes. -/
structure Effect where
  targets : List RegId
  values : List Nat
  step : Step

/-- Nothing is stored. -/
def Effect.stay (step : Step) : Effect := ⟨[], [], step⟩

namespace Microcode

/-- The effect of a microcode, given widths and values; a call counts as rejected. -/
def effect (rs : RegisterFile) (load : RegId → Nat) (code : Microcode) : Effect :=
  match code with
  | assign targets _ | add targets _ _ | mul targets _ _ | sub targets _ _ =>
    ⟨targets, Digits.cut (rs.widths targets) (code.value rs load), .skip 1⟩
  | cast targets source width =>
    if width < bitLength (load source) then .stay .fail
    else ⟨targets, Digits.cut (rs.widths targets) (code.value rs load), .skip 1⟩
  | div quotient remainder witness dividend divisor =>
    if load divisor = 0 then .stay .fail
    else ⟨[quotient, remainder, witness], [load dividend / load divisor,
      load dividend % load divisor, load divisor - load dividend % load divisor - 1], .skip 1⟩
  | skip left right constant distance =>
    .stay (.compare (load left) (if right.isUsed then load right else constant) distance)
  | skipIf left right constant distance =>
    .stay (.compare (Digits.join (rs.widths left) (left.map load))
      (if right = [] then constant else Digits.join (rs.widths right) (right.map load)) distance)
  | jmp target => .stay (.jump target)
  | ret => .stay .ret
  | fail | call .. => .stay .fail

/-- A sum or product spreads its value over its targets. -/
theorem effect_sum {rs : RegisterFile} {load : RegId → Nat} {code : Microcode} {p : Polynomial}
    (hp : code.polynomial? = some p) : code.effect rs load =
      ⟨code.targets, Digits.cut (rs.widths code.targets) (p.eval load), .skip 1⟩ := by
  have hvalue : code.value rs load = p.eval load := value_eq_eval hp
  rw [← hvalue]
  cases code with
  | assign targets rhs => rfl
  | add targets sources constant => rfl
  | mul targets sources constant => rfl
  | _ => cases hp

/-- Executing the microcode in `s` leads to `s₁` whatever the boundary is, which is left alone. -/
def Does (code : Microcode) (s : State) (step : Step) (s₁ : State) : Prop :=
  ∀ {σ : Type} (io : Boundary σ) (m : σ), code.execute io ⟨s, m⟩ = .ok step ⟨s₁, m⟩

end Microcode

theorem Frame.onState_ok {σ α : Type} {x : Update α} {s s₁ : State} {a : α}
    (h : x s = .ok a s₁) (m : σ) :
    (Frame.onState x : Exec σ α) ⟨s, m⟩ = .ok a ⟨s₁, m⟩ := by
  simp [Frame.onState, h]

theorem Frame.onState_error {σ α : Type} {x : Update α} {s s₁ : State} {e : RunError}
    (h : x s = .error e s₁) (m : σ) :
    (Frame.onState x : Exec σ α) ⟨s, m⟩ = .error e ⟨s₁, m⟩ := by
  simp [Frame.onState, h]

/-- What is borrowed is at most what the largest subtrahends would need. -/
theorem State.Fits.borrowsFor_le {s : State} (hs : s.Fits) (minuend : RegId)
    (subtrahends : List RegId) (constant width : Nat) :
    borrowsFor (constant + (subtrahends.map s.load).sum - s.load minuend) width ≤
      borrowsFor (constant + (subtrahends.map s.registers.maxOf).sum) width := by
  have : (subtrahends.map s.load).sum ≤ (subtrahends.map s.registers.maxOf).sum :=
    List.sum_le_sum fun id _ => hs.load_le_maxOf id
  exact borrowsFor_mono (by omega)

theorem RegisterFile.Subtractable.borrow_fits {s : State} {targets subtrahends : List RegId}
    {minuend : RegId} {constant pivot : Nat}
    (h : s.registers.Subtractable targets minuend subtrahends constant pivot) (hs : s.Fits) :
    borrowsFor (constant + (subtrahends.map s.load).sum - s.load minuend)
      (s.registers.widthOf minuend) < 2 ^ (s.registers.widths (targets.drop pivot)).sum :=
  Nat.lt_of_le_of_lt (hs.borrowsFor_le minuend subtrahends constant _) h.borrow_lt

namespace State

variable {s : State}

/-- A number that fits its targets is spread over them. -/
theorem storeAcross_fits {n : Nat} {targets : List RegId} (hs : s.Fits)
    (ht : s.registers.Storable targets) (hn : n < 2 ^ (s.registers.widths targets).sum) :
    ∃ s₁, storeAcross (n : Int) targets s = .ok () s₁ ∧
      s.Assigned targets (Digits.cut (s.registers.widths targets) n) s₁ :=
  storeAcross_nat_ok hs.length_eq ht.nodup ht.declared ht.size hn

/-- Difference and borrow are spread over the targets as one number. -/
theorem subtract_ok {targets subtrahends : List RegId} {minuend : RegId} {constant pivot : Nat}
    (hs : s.Fits)
    (h : s.registers.Subtractable targets minuend subtrahends constant pivot) :
    ∃ s₁, subtract targets (minuend :: subtrahends) constant s = .ok () s₁ ∧
      s.Assigned targets (Digits.cut (s.registers.widths targets)
        ((Microcode.sub targets (minuend :: subtrahends) constant).value s.registers s.load))
          s₁ := by
  have hwidth := h.width_eq
  have hmin := hs.load_lt minuend
  have hsplit := List.take_append_drop pivot targets
  have hdis : (targets.take pivot).Disjoint (targets.drop pivot) := by
    have hnd := h.nodup
    rw [← hsplit] at hnd
    exact List.disjoint_of_nodup_append hnd
  have hborrow := h.borrow_fits hs
  have hdiff : (s.load minuend : Int) - (constant + (subtrahends.map s.load).sum : Nat) <
      2 ^ (s.registers.widths (targets.take pivot)).sum := by
    have : (s.load minuend : Int) < 2 ^ s.registers.widthOf minuend := by exact_mod_cast hmin
    rw [hwidth]
    omega
  obtain ⟨s₁, hlow, h₁⟩ :=
    storeAcross_ok hs.length_eq h.low.nodup h.low.declared h.low.size hdiff
  have hregs := h₁.registers_eq
  obtain ⟨s₂, hhigh, h₂⟩ :=
    storeAcross_nat_ok (s := s₁) (by rw [h₁.length_eq, hregs, hs.length_eq])
    h.high.nodup (by rw [hregs]; exact h.high.declared) (by rw [hregs]; exact h.high.size)
    (by rw [hregs]; exact hborrow)
  refine ⟨s₂, ?_, ?_⟩
  · unfold subtract
    rw [estate_get_bind]
    simp only [List.head?_cons, Option.map_some, Option.getD_some, List.tail_cons, h.pivot_eq]
    rw [estate_bind_of_ok hlow]
    exact hhigh
  · have happ := h₁.append h₂ fun id hid _ => hdis hid
    have hbal : Balances (s.load minuend) (constant + (subtrahends.map s.load).sum)
      (s.registers.widthOf minuend) _ _ := balances_borrowsFor hmin
    rw [hsplit, hregs, hwidth, ← Digits.cut_append_add (by rw [hwidth]; exact hbal.low_lt),
      hwidth, ← RegisterFile.widths_append, hsplit] at happ
    exact happ

/-- After a subtraction the targets before and after the pivot hold difference and borrow. -/
theorem Assigned.balances {s₁ : State} {targets subtrahends : List RegId} {minuend : RegId}
    {constant pivot : Nat}
    (h₁ : s.Assigned targets (Digits.cut (s.registers.widths targets)
      ((Microcode.sub targets (minuend :: subtrahends) constant).value s.registers s.load)) s₁)
    (hs : s.Fits) (h : s.registers.Subtractable targets minuend subtrahends constant pivot) :
    Balances (s.load minuend) (constant + (subtrahends.map s.load).sum)
      (s.registers.widthOf minuend) (s₁.packed (targets.take pivot))
      (s₁.packed (targets.drop pivot)) := by
  obtain ⟨low, borrow, hbal, hborrow⟩ : ∃ low borrow, Balances (s.load minuend)
      (constant + (subtrahends.map s.load).sum) (s.registers.widthOf minuend) low borrow ∧
      borrow < 2 ^ (s.registers.widths (targets.drop pivot)).sum :=
    ⟨_, _, balances_borrowsFor (hs.load_lt minuend), h.borrow_fits hs⟩
  have hlow := hbal.low_lt
  have hvalue : (Microcode.sub targets (minuend :: subtrahends) constant).value s.registers s.load =
      low + 2 ^ s.registers.widthOf minuend * borrow := hbal.balance_eq (hs.load_lt minuend)
  rw [← h.width_eq] at hlow hvalue
  -- the targets hold the digits of the sum, and these split at the pivot
  have hloads := h₁.map_load
  have hwidths : s.registers.widths targets = s.registers.widths (targets.take pivot) ++
      s.registers.widths (targets.drop pivot) := by
    rw [← RegisterFile.widths_append, List.take_append_drop]
  have hmap : targets.map s₁.load =
      (targets.take pivot).map s₁.load ++ (targets.drop pivot).map s₁.load := by
    rw [← List.map_append, List.take_append_drop]
  rw [hmap, hwidths, hvalue, Digits.cut_append_add hlow] at hloads
  obtain ⟨htake, hdrop⟩ := List.append_inj hloads (by simp)
  unfold packed
  rw [htake, hdrop, h₁.registers_eq, Digits.join_cut_of_lt hlow, Digits.join_cut_of_lt hborrow]
  exact hbal

theorem divide_eq_storeEach (quotient remainder witness : RegId) (dividend divisor : Nat) :
    divide quotient remainder witness dividend divisor =
      storeEach ([quotient, remainder, witness].zip [dividend / divisor, dividend % divisor,
        divisor - dividend % divisor - 1]) := by
  simp [divide, storeEach]

/-- Quotient, remainder and witness are stored, each in its own target. -/
theorem divide_ok {quotient remainder witness dividend divisor : RegId} (hs : s.Fits)
    (h : (Microcode.div quotient remainder witness dividend divisor).Runnable s.registers)
    (hpos : s.load divisor ≠ 0) :
    let ids := [quotient, remainder, witness]
    let vs := [s.load dividend / s.load divisor, s.load dividend % s.load divisor,
      s.load divisor - s.load dividend % s.load divisor - 1]
    List.Forall₂ (Takes s.registers) ids vs ∧
      ∃ s₁,
        divide quotient remainder witness (s.load dividend) (s.load divisor) s = .ok () s₁ ∧
        s.Assigned ids vs s₁ := by
  obtain ⟨hnd, hdecl, hquot, hrem, hwit⟩ := h
  have hdividend := hs.load_lt dividend
  have hdivisor := hs.load_lt divisor
  have hmod := Nat.mod_lt (s.load dividend) (Nat.pos_of_ne_zero hpos)
  have hdiv := Nat.div_le_self (s.load dividend) (s.load divisor)
  have hpow : ∀ {a b : Nat}, a ≤ b → 2 ^ a ≤ 2 ^ b :=
    fun hab => Nat.pow_le_pow_right (by omega) hab
  have hdecl' : ∀ id ∈ [quotient, remainder, witness], id.isUsed = true →
      s.registers.declares id = true := fun id hid hu => hdecl id (List.mem_filter.2 ⟨hid, hu⟩)
  have htakes : List.Forall₂ (Takes s.registers) [quotient, remainder, witness]
      [s.load dividend / s.load divisor, s.load dividend % s.load divisor,
        s.load divisor - s.load dividend % s.load divisor - 1] := by
    refine .cons (fun hu => ⟨hdecl' _ (by simp) hu, ?_⟩)
      (.cons (fun hu =>
        ⟨hdecl' _ (by simp) hu, ?_⟩) (.cons (fun hu => ⟨hdecl' _ (by simp) hu, ?_⟩) .nil))
    · have := hpow hquot
      omega
    · have := hpow hrem
      omega
    · have := hpow (hwit hu)
      omega
  refine ⟨htakes, ?_⟩
  rw [divide_eq_storeEach]
  exact storeEach_ok hs.length_eq hnd htakes

end State

namespace Microcode

variable {code : Microcode} {s : State}

/-- There is one way to execute a microcode that asks no bus. -/
theorem Does.unique {s₁ s₂ : State} {step step' : Step} (h : code.Does s step s₁)
    (h' : code.Does s step' s₂) : step = step' ∧ s₁ = s₂ := by
  have heq := (h Boundary.closed ()).symm.trans (h' Boundary.closed ())
  simpa using heq

/-- Executing the microcode in `s` spreads `n` over its targets, whatever the boundary is. -/
def Spreads (code : Microcode) (s : State) (n : Nat) : Prop :=
  ∀ {σ : Type} (io : Boundary σ) (m : σ), code.execute io ⟨s, m⟩ =
    (do Frame.onState (State.storeAcross (n : Int) code.targets); return .skip 1 : Exec σ Step)
    ⟨s, m⟩

theorem Spreads.does {n : Nat} {s₁ : State} (hspreads : code.Spreads s n)
    (h : State.storeAcross (n : Int) code.targets s = .ok () s₁) :
    code.Does s (.skip 1) s₁ := by
  intro σ io m
  rw [hspreads io m, estate_bind_of_ok (Frame.onState_ok h m)]
  rfl

/-- Sums and products spread their value. -/
theorem spreads_value {p : Polynomial} (hp : code.polynomial? = some p) (s : State) :
    code.Spreads s (code.value s.registers s.load) := by
  intro σ io m
  cases code with
  | assign targets rhs => rfl
  | add targets sources constant => rfl
  | mul targets sources constant => rfl
  | _ => cases hp

theorem value_le_maxValue {p : Polynomial} (hp : code.polynomial? = some p) (hs : s.Fits) :
    code.value s.registers s.load ≤ p.maxValue s.registers := by
  rw [value_eq_eval hp]
  exact p.eval_le_maxValue hs.load_le_maxOf

/-- Sums and products whose largest value fits are executed without an error. -/
theorem does_value {p : Polynomial} (hp : code.polynomial? = some p)
    (ht : s.registers.Storable code.targets)
    (hmax : p.maxValue s.registers < 2 ^ (s.registers.widths code.targets).sum) (hs : s.Fits) :
    let digits := Digits.cut (s.registers.widths code.targets) (code.value s.registers s.load)
    ∃ s₁, code.Does s (.skip 1) s₁ ∧ s.Assigned code.targets digits s₁ ∧
      List.Forall₂ (State.Takes s.registers) code.targets digits := by
  have hlt := Nat.lt_of_le_of_lt (value_le_maxValue hp hs) hmax
  obtain ⟨s₁, hstore, h₁⟩ := State.storeAcross_fits hs ht hlt
  exact ⟨s₁, Spreads.does (spreads_value hp s) hstore, h₁, State.takes_cut _ ht.declared⟩

theorem does_stay {step : Step}
    (h : ∀ {σ : Type} (io : Boundary σ) (m : σ),
      code.execute io ⟨s, m⟩ = .ok step ⟨s, m⟩) :
    ∃ s₁, code.Does s step s₁ ∧ s.Assigned [] [] s₁ ∧
      List.Forall₂ (State.Takes s.registers) [] [] :=
  ⟨s, h, .refl s, .nil⟩

/-- Executing a runnable microcode in a state that fits has exactly its effect. -/
theorem does_effect (hlocal : code.isLocal = true) (hrun : code.Runnable s.registers)
    (hs : s.Fits) : ∃ s₁, code.Does s (code.effect s.registers s.load).step s₁ ∧
      s.Assigned (code.effect s.registers s.load).targets (code.effect s.registers s.load).values
        s₁ ∧
      List.Forall₂ (State.Takes s.registers) (code.effect s.registers s.load).targets
        (code.effect s.registers s.load).values := by
  cases code with
  | assign targets rhs => exact does_value rfl hrun.1 hrun.2 hs
  | add targets sources constant => exact does_value rfl hrun.1 hrun.2 hs
  | mul targets sources constant => exact does_value rfl hrun.1 hrun.2 hs
  | sub targets sources constant =>
    obtain ⟨minuend, subtrahends, pivot, rfl, hsub⟩ := hrun
    obtain ⟨s₁, hstore, h₁⟩ := State.subtract_ok hs hsub
    refine ⟨s₁, fun io m => ?_, h₁, State.takes_cut _ ?_⟩
    · exact estate_bind_of_ok (Frame.onState_ok hstore m)
    · intro id hid
      have hsplit : id ∈ targets.take pivot ++ targets.drop pivot := by
        rw [List.take_append_drop]
        exact hid
      exact (List.mem_append.1 hsplit).elim (hsub.low.declared id) (hsub.high.declared id)
  | cast targets source width =>
    obtain ⟨ht, hwidth⟩ := hrun
    by_cases hfail : width < bitLength (s.load source)
    · simp only [effect, hfail, if_true]
      refine does_stay fun io m => ?_
      simp only [execute, estate_get_bind, hfail, if_true]
      rfl
    · simp only [effect, hfail, if_false]
      have hlt : s.load source < 2 ^ (s.registers.widths targets).sum :=
        bitLength_le_iff.1 (by omega)
      have hspreads : (cast targets source width).Spreads s (s.load source) := fun io m => by
        simp only [execute, estate_get_bind, hfail, if_false, Microcode.targets]
      obtain ⟨s₁, hstore, h₁⟩ := State.storeAcross_fits hs ht hlt
      exact ⟨s₁, hspreads.does hstore, h₁, State.takes_cut _ ht.declared⟩
  | div quotient remainder witness dividend divisor =>
    by_cases hzero : s.load divisor = 0
    · simp only [effect, hzero, if_true]
      refine does_stay fun io m => ?_
      simp only [execute, estate_get_bind, hzero, if_true]
      rfl
    · simp only [effect, hzero, if_false]
      obtain ⟨htakes, s₁, hstore, h₁⟩ := State.divide_ok hs hrun hzero
      refine ⟨s₁, fun io m => ?_, h₁, htakes⟩
      simp only [execute, estate_get_bind, hzero, if_false]
      exact estate_bind_of_ok (Frame.onState_ok hstore m)
  | skip left right constant distance => exact does_stay fun _ _ => rfl
  | skipIf left right constant distance =>
    refine does_stay fun io m => ?_
    simp only [execute, estate_get_bind, effect, Effect.stay]
    rw [s.pack_eq hrun.1, s.pack_eq hrun.2]
    rfl
  | call bus targets sources => cases hlocal
  | jmp target => exact does_stay fun _ _ => rfl
  | ret => exact does_stay fun _ _ => rfl
  | fail => exact does_stay fun _ _ => rfl

/-! ## Calls -/

section Calls

variable {σ : Type} {io : Boundary σ} {bus : Nat} {targets sources : List RegId} {m m₁ : σ}

theorem execute_call_error {e : RunError} (h : io.read bus (sources.map s.load) m = .error e m₁) :
    (call bus targets sources).execute io ⟨s, m⟩ = .error e ⟨s, m₁⟩ := by
  have hmem : (Frame.onMemory (io.read bus (sources.map s.load)) : Exec σ _) ⟨s, m⟩ =
      .error e ⟨s, m₁⟩ := by simp [Frame.onMemory, h]
  have htrans : Frame.transact io bus sources targets ⟨s, m⟩ = .error e ⟨s, m₁⟩ := by
    unfold Frame.transact
    rw [estate_get_bind, estate_bind_of_error hmem]
  unfold execute
  rw [estate_get_bind]
  exact estate_bind_of_error htrans

theorem execute_call_rejected (h : io.read bus (sources.map s.load) m = .ok none m₁) :
    (call bus targets sources).execute io ⟨s, m⟩ = .ok .fail ⟨s, m₁⟩ := by
  have hmem : (Frame.onMemory (io.read bus (sources.map s.load)) : Exec σ _) ⟨s, m⟩ =
      .ok none ⟨s, m₁⟩ := by simp [Frame.onMemory, h]
  have htrans : Frame.transact io bus sources targets ⟨s, m⟩ = .ok false ⟨s, m₁⟩ := by
    unfold Frame.transact
    rw [estate_get_bind, estate_bind_of_ok hmem]
    rfl
  unfold execute
  rw [estate_get_bind]
  exact estate_bind_of_ok htrans

/-- An answer that the targets can take is stored. -/
theorem execute_call_answered {vs : List Nat} (hs : s.Fits) (hnd : targets.Nodup)
    (htakes : List.Forall₂ (State.Takes s.registers) targets vs)
    (h : io.read bus (sources.map s.load) m = .ok (some vs) m₁) :
    ∃ s₁, (call bus targets sources).execute io ⟨s, m⟩ = .ok (.skip 1) ⟨s₁, m₁⟩ ∧
      s.Assigned targets vs s₁ := by
  obtain ⟨s₁, hstore, h₁⟩ := State.storeEach_ok hs.length_eq (hnd.filter _) htakes
  have hmem : (Frame.onMemory (io.read bus (sources.map s.load)) : Exec σ _) ⟨s, m⟩ =
      .ok (some vs) ⟨s, m₁⟩ := by simp [Frame.onMemory, h]
  have htrans : Frame.transact io bus sources targets ⟨s, m⟩ = .ok true ⟨s₁, m₁⟩ := by
    unfold Frame.transact
    rw [estate_get_bind, estate_bind_of_ok hmem]
    simp only [ne_eq, htakes.length_eq, not_true_eq_false, if_false]
    exact estate_bind_of_ok (Frame.onState_ok hstore m₁)
  refine ⟨s₁, ?_, h₁⟩
  unfold execute
  rw [estate_get_bind]
  exact estate_bind_of_ok htrans

end Calls

/-! ## Where control goes -/

/-- Where a microcode may send control. -/
def Leads (code : Microcode) : Step → Prop
  | .skip count => code.isTerminal = false ∧
    (count = 1 ∨ ∃ distance, code.skipDistance = some distance ∧ count = Word.add 1 distance)
  | .jump pc => code = .jmp pc
  | .ret | .fail => True

theorem leads_compare {left right distance : Nat} (hterm : code.isTerminal = false)
    (hskip : code.skipDistance = some distance) : code.Leads (.compare left right distance) := by
  unfold Step.compare
  split
  · exact ⟨hterm, .inr ⟨distance, hskip, rfl⟩⟩
  · exact ⟨hterm, .inl rfl⟩

theorem leads_effect (rs : RegisterFile) (load : RegId → Nat) (code : Microcode) :
    code.Leads (code.effect rs load).step := by
  cases code with
  | assign targets rhs => exact ⟨rfl, .inl rfl⟩
  | add targets sources constant => exact ⟨rfl, .inl rfl⟩
  | sub targets sources constant => exact ⟨rfl, .inl rfl⟩
  | mul targets sources constant => exact ⟨rfl, .inl rfl⟩
  | cast targets source width =>
    simp only [effect]
    split
    · trivial
    · exact ⟨rfl, .inl rfl⟩
  | div quotient remainder witness dividend divisor =>
    simp only [effect]
    split
    · trivial
    · exact ⟨rfl, .inl rfl⟩
  | skip left right constant distance => exact leads_compare rfl rfl
  | skipIf left right constant distance => exact leads_compare rfl rfl
  | call bus targets sources => trivial
  | jmp target => rfl
  | ret => trivial
  | fail => trivial

end Microcode

end LimbMachine
