import LimbMachine.Proofs.Exec.Subtraction

/-!
# Bit accounting is exact

The check of a right-hand side asks whether its largest value fits. It is neither too strict nor too
lax: the largest value is reached in one state, with every register at its own largest
(`Microcode.value_holding_maxOf`), and no state that fits goes past it. For a subtraction the
largest borrow is reached with the minuend at zero (`Microcode.exists_borrow_wide_iff`), so it takes
a minuend that is no subtrahend. `Microcode.width_accounting_exact` puts the two together.
-/

namespace LimbMachine

/-! ## States that hold a valuation -/

namespace State

variable {rs : RegisterFile} {valuation : RegId → Nat}

/-- The state that holds a valuation of the registers. -/
def holding (rs : RegisterFile) (valuation : RegId → Nat) : State :=
  ⟨rs, (List.range rs.length).map fun i => valuation (.reg i), 0⟩

theorem load_holding (h : ∀ id, valuation id ≤ rs.maxOf id) (id : RegId) :
    (holding rs valuation).load id = valuation id := by
  cases id with
  | unused => exact (Nat.le_zero.1 (h .unused)).symm
  | reg i =>
    rcases Nat.lt_or_ge i rs.length with hi | hi
    · simp [holding, load, hi]
    · have hzero : rs.maxOf (.reg i) = 0 := by simp [RegisterFile.maxOf, RegisterFile.find?, hi]
      have hle := h (.reg i)
      have hload : (holding rs valuation).load (.reg i) = 0 := by simp [holding, load, hi]
      omega

theorem fits_holding (h : ∀ id, valuation id ≤ rs.maxOf id) : (holding rs valuation).Fits := by
  refine ⟨by simp [holding], fun id => ?_⟩
  have hle := h id
  have hpos := Nat.two_pow_pos (rs.widthOf id)
  rw [RegisterFile.maxOf_eq] at hle
  rw [load_holding h]
  show valuation id < 2 ^ rs.widthOf id
  omega

end State

/-- Declared registers, and distinct targets none of which is an input. -/
structure Scope.Admits (scope : Scope) (code : Microcode) : Prop where
  declared : ∀ id ∈ code.reads ++ code.writes, scope.registers.declares id = true
  writable : scope.Writable code.targets

namespace Microcode

variable {scope : Scope} {code : Microcode} {p : Polynomial}

/-! ## Sums and products -/

/-- A right-hand side is accepted if its largest value fits. -/
theorem validate_ok_iff_maxValue (hp : code.polynomial? = some p) (h : scope.Admits code) :
    code.validate scope = .ok () ↔
      p.maxValue scope.registers < 2 ^ scope.registers.totalWidth code.targets ∧
        p.maxValue scope.registers < 2 ^ scope.field.bandwidth := by
  rw [validate_ok_iff, rule_sum_iff hp, ← bitLength_le_iff, ← bitLength_le_iff]
  exact ⟨fun hok => hok.2.2, fun hok => ⟨h.declared, h.writable, hok⟩⟩

/-- The largest value of a right-hand side is reached, with every register at its own largest. -/
theorem value_holding_maxOf (hp : code.polynomial? = some p) (rs : RegisterFile) :
    code.value rs (State.holding rs rs.maxOf).load = p.maxValue rs := by
  rw [value_eq_eval hp, Polynomial.maxValue, funext (State.load_holding fun id => Nat.le_refl _)]

/-! ## Subtractions -/

section Subtraction

variable {targets subtrahends : List RegId} {minuend : RegId} {constant pivot : Nat}

/-- A subtraction that has a pivot is reported as too wide if the largest borrow does not fit. -/
theorem validate_sub_wide_iff (h : scope.Admits (sub targets (minuend :: subtrahends) constant))
    (hpivot : subPivot targets scope.registers (scope.registers.widthOf minuend) = some pivot) :
    (∃ site lhs rhs, (sub targets (minuend :: subtrahends) constant).validate scope =
        .error (.rhsWiderThanLhs site lhs rhs)) ↔
      2 ^ scope.registers.totalWidth (targets.drop pivot) ≤
        borrowsFor (constant + (subtrahends.map scope.registers.maxOf).sum)
          (scope.registers.widthOf minuend) := by
  have htargets : scope.checkTargets (sub targets (minuend :: subtrahends) constant) [] targets =
      .ok () := Scope.checkTargets_ok_iff.2 ⟨h.writable, by simp⟩
  have hcheck : (sub targets (minuend :: subtrahends) constant).validate scope =
      scope.checkSub (sub targets (minuend :: subtrahends) constant) targets
        (minuend :: subtrahends) constant := by
    simp only [validate, Scope.checkKnown_ok_iff.2 h.declared, htargets, except_ok_bind]
  rw [hcheck, ← Nat.not_lt, ← bitLength_le_iff, Nat.not_le]
  simp only [Scope.checkSub, hpivot, Scope.checkCapacity]
  split
  · rename_i hwide
    exact iff_of_true ⟨_, _, _, rfl⟩ hwide
  · rename_i hfits
    refine iff_of_false ?_ hfits
    -- what is left is the check against the field, which reports another error
    rintro ⟨site, lhs, rhs, herror⟩
    rw [except_ok_bind, Scope.checkField] at herror
    split at herror
    · cases herror
    · cases herror

/-- The largest borrow is reached with the minuend at zero and every subtrahend at its largest, and
no state that fits borrows more. -/
theorem exists_borrow_wide_iff {rs : RegisterFile} (hminuend : minuend ∉ subtrahends)
    (constant width limit : Nat) :
    limit ≤ borrowsFor (constant + (subtrahends.map rs.maxOf).sum) width ↔
      ∃ s : State, s.registers = rs ∧ s.Fits ∧
        limit ≤ borrowsFor (constant + (subtrahends.map s.load).sum - s.load minuend) width := by
  constructor
  · intro hwide
    have hle : ∀ id, (if id = minuend then 0 else rs.maxOf id) ≤ rs.maxOf id := fun id => by
      split
      · exact Nat.zero_le _
      · exact Nat.le_refl _
    have hload := State.load_holding hle
    refine ⟨State.holding rs fun id => if id = minuend then 0 else rs.maxOf id, rfl,
      State.fits_holding hle, ?_⟩
    have hsum : subtrahends.map (State.holding rs _).load = subtrahends.map rs.maxOf :=
      List.map_congr_left fun id hid => by
        rw [hload, if_neg (fun heq : id = minuend => hminuend (heq ▸ hid))]
    rw [hload, if_pos rfl, hsum]
    exact hwide
  · rintro ⟨s, rfl, hs, hwide⟩
    exact Nat.le_trans hwide (hs.borrowsFor_le minuend subtrahends constant width)

/-- A subtraction fails to execute if its borrow does not fit the targets after the pivot. -/
theorem execute_sub_wide_iff {σ : Type} {s : State} (hs : s.Fits)
    (hdecl : ∀ id ∈ targets, id.isUsed = true → s.registers.declares id = true)
    (hpivot : subPivot targets s.registers (s.registers.widthOf minuend) = some pivot)
    (io : Boundary σ) (m : σ) :
    (∃ names width value frame,
      (sub targets (minuend :: subtrahends) constant).execute io ⟨s, m⟩ =
        .error (.widthViolation names width value) frame) ↔
      2 ^ s.registers.totalWidth (targets.drop pivot) ≤
        borrowsFor (constant + (subtrahends.map s.load).sum - s.load minuend)
          (s.registers.widthOf minuend) := by
  obtain ⟨s₁, hexec⟩ := execute_sub_eq constant subtrahends hs hdecl hpivot
  rw [hexec io m]
  split
  · rename_i hfits
    refine iff_of_false ?_ (Nat.not_le.2 hfits)
    rintro ⟨_, _, _, _, herror⟩
    cases herror
  · rename_i hwide
    exact iff_of_true ⟨_, _, _, _, rfl⟩ (Nat.not_lt.1 hwide)

end Subtraction

/-- A sum or product is accepted exactly if in every state that fits its value stays below `2 ^` the
width of the targets and below `2 ^` the bandwidth of the field. A subtraction is reported as wider
than its targets exactly if in some state that fits it fails for that reason. -/
theorem width_accounting_exact {σ : Type} (scope : Scope) (io : Boundary σ) (m : σ) :
    (∀ code : Microcode, code.polynomial?.isSome = true → scope.Admits code →
      (∀ s : State, code.Spreads s (code.value s.registers s.load)) ∧
      (code.validate scope = .ok () ↔ ∀ s : State, s.registers = scope.registers → s.Fits →
        code.value s.registers s.load < 2 ^ scope.registers.totalWidth code.targets ∧
          code.value s.registers s.load < 2 ^ scope.field.bandwidth)) ∧
    ∀ targets minuend subtrahends constant pivot,
      scope.Admits (sub targets (minuend :: subtrahends) constant) →
      subPivot targets scope.registers (scope.registers.widthOf minuend) = some pivot →
      minuend ∉ subtrahends →
      ((∃ site lhs rhs, (sub targets (minuend :: subtrahends) constant).validate scope =
          .error (.rhsWiderThanLhs site lhs rhs)) ↔
        ∃ s : State, s.registers = scope.registers ∧ s.Fits ∧ ∃ names width value frame,
          (sub targets (minuend :: subtrahends) constant).execute io ⟨s, m⟩ =
            .error (.widthViolation names width value) frame) := by
  constructor
  · intro code hcode hadmits
    obtain ⟨p, hp⟩ := Option.isSome_iff_exists.1 hcode
    refine ⟨spreads_value hp, ?_⟩
    rw [validate_ok_iff_maxValue hp hadmits]
    constructor
    · rintro ⟨hlhs, hfield⟩ s hregs hs
      have hle := value_le_maxValue hp hs
      rw [hregs] at hle ⊢
      exact ⟨Nat.lt_of_le_of_lt hle hlhs, Nat.lt_of_le_of_lt hle hfield⟩
    · intro hall
      rw [← value_holding_maxOf hp]
      exact hall _ rfl (State.fits_holding fun id => Nat.le_refl _)
  · intro targets minuend subtrahends constant pivot hadmits hpivot hminuend
    have hdecl : ∀ id ∈ targets, id.isUsed = true → scope.registers.declares id = true :=
      declares_targets rfl hadmits.declared
    rw [validate_sub_wide_iff hadmits hpivot, exists_borrow_wide_iff hminuend]
    refine exists_congr fun s => and_congr_right fun hregs => and_congr_right fun hs => ?_
    rw [execute_sub_wide_iff hs (hregs ▸ hdecl) (hregs ▸ hpivot), hregs]

/-- The registers `x`, `y` and `z`, the product `p`, the difference `d` and the borrow `b`. -/
def tightScope : Scope where
  field := ⟨"F", 18, 8⟩
  registers := [⟨.input, "x", 8, 0⟩, ⟨.input, "y", 8, 0⟩, ⟨.input, "z", 8, 0⟩,
    ⟨.output, "p", 18, 0⟩, ⟨.output, "d", 8, 0⟩, ⟨.output, "b", 1, 0⟩]
  buses := []
  instructions := 1

theorem width_accounting_exact_tight :
    (∀ s : State, s.registers = tightScope.registers → s.Fits →
      3 * s.load (.reg 0) * s.load (.reg 0) < 2 ^ 18) ∧
    ∃ s : State, s.registers = tightScope.registers ∧ s.Fits ∧ ∃ names width value frame,
      (sub [.reg 4, .reg 5] [.reg 0, .reg 1, .reg 2] 0).execute Boundary.closed ⟨s, ()⟩ =
        .error (.widthViolation names width value) frame := by
  obtain ⟨hsums, hsubs⟩ := width_accounting_exact tightScope Boundary.closed ()
  constructor
  · intro s hregs hs
    have hadmits : tightScope.Admits (mul [.reg 3] [.reg 0, .reg 0] 3) :=
      ⟨by decide, by decide, by decide⟩
    exact ((hsums _ rfl hadmits).2.1 rfl s hregs hs).1
  · have hadmits : tightScope.Admits (sub [.reg 4, .reg 5] [.reg 0, .reg 1, .reg 2] 0) :=
      ⟨by decide, by decide, by decide⟩
    exact (hsubs [.reg 4, .reg 5] (.reg 0) [.reg 1, .reg 2] 0 1 hadmits rfl (by decide)).1
      ⟨_, _, _, rfl⟩

end Microcode

end LimbMachine
