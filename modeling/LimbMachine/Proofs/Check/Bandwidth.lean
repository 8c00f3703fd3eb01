import LimbMachine.Proofs.Check.Ways
import LimbMachine.Proofs.Failure

/-!
# What is refused for its bandwidth alone

Of the checks only one looks at the field: a right-hand side has to fit one field element. A
microcode that is acceptable for some bandwidth (`Microcode.Acceptable`) is refused for another one
only for being too wide, and so is an instruction of such microcodes
(`Instruction.failsOnly_validate`).
-/

namespace LimbMachine

/-- The refusal of a right-hand side that is wider than the field. -/
inductive ValidationError.IsBandwidth : ValidationError → Prop
  | intro (site : Site) (bandwidth width : Nat) :
    IsBandwidth (.rhsWiderThanField site bandwidth width)

/-- The scope with another bandwidth. -/
def Scope.withBandwidth (scope : Scope) (bandwidth : Nat) : Scope :=
  { scope with field := { scope.field with bandwidth := bandwidth } }

@[simp] theorem Scope.registers_withBandwidth (scope : Scope) (bandwidth : Nat) :
    (scope.withBandwidth bandwidth).registers = scope.registers := rfl

/-- The microcode is accepted for some bandwidth. -/
def Microcode.Acceptable (scope : Scope) (code : Microcode) : Prop :=
  ∃ bandwidth, code.validate (scope.withBandwidth bandwidth) = .ok ()

namespace Scope

variable {scope : Scope} {code : Microcode} {lhs rhs : Nat}

theorem failsOnly_checkField (scope : Scope) (code : Microcode) (rhs : Nat) :
    FailsOnly ValidationError.IsBandwidth (scope.checkField code rhs) := by
  intro e he
  unfold checkField at he
  split at he
  · cases he
    exact .intro _ _ _
  · cases he

theorem failsOnly_checkRhs (h : rhs ≤ lhs) :
    FailsOnly ValidationError.IsBandwidth (scope.checkRhs code lhs rhs) :=
  .bind (.of_ok (checkCapacity_ok_iff.2 h)) fun _ _ => failsOnly_checkField scope code rhs

end Scope

namespace Microcode

variable {scope : Scope} {code : Microcode}

theorem failsOnly_checkSub {targets subtrahends : List RegId} {minuend : RegId}
    {constant pivot bandwidth : Nat}
    (h : (scope.withBandwidth bandwidth).SubRule targets minuend subtrahends constant pivot) :
    FailsOnly ValidationError.IsBandwidth
      (scope.checkSub code targets (minuend :: subtrahends) constant) := by
  have hpivot : subPivot targets scope.registers (scope.registers.widthOf minuend) = some pivot :=
    h.pivot_eq
  unfold Scope.checkSub
  simp only [hpivot]
  exact .bind (.of_ok (Scope.checkCapacity_ok_iff.2 h.borrow_le)) fun _ _ =>
    scope.failsOnly_checkField _ _

/-- An acceptable microcode is refused only for its width. -/
theorem failsOnly_validate (h : code.Acceptable scope) :
    FailsOnly ValidationError.IsBandwidth (code.validate scope) := by
  obtain ⟨bandwidth, hvalid⟩ := h
  obtain ⟨hknown, hrule⟩ := validate_ok_iff.1 hvalid
  have htargets : ∀ {targets : List RegId}, (scope.withBandwidth bandwidth).Writable targets →
      scope.checkTargets code [] targets = .ok () :=
    fun hw => Scope.checkTargets_ok_iff.2 ⟨⟨hw.notInput, hw.nodup⟩, by simp⟩
  refine .bind (.of_ok (Scope.checkKnown_ok_iff.2 hknown)) fun _ _ => ?_
  cases code with
  | assign targets rhs =>
    exact .bind (.of_ok (htargets hrule.1)) fun _ _ => Scope.failsOnly_checkRhs hrule.2.1
  | add targets sources constant =>
    exact .bind (.of_ok (htargets hrule.1)) fun _ _ => Scope.failsOnly_checkRhs hrule.2.1
  | mul targets sources constant =>
    exact .bind (.of_ok (htargets hrule.1)) fun _ _ => Scope.failsOnly_checkRhs hrule.2.1
  | sub targets sources constant =>
    obtain ⟨hw, minuend, subtrahends, pivot, rfl, hsub⟩ := hrule
    exact .bind (.of_ok (htargets hw)) fun _ _ => failsOnly_checkSub hsub
  | cast targets source width =>
    obtain ⟨hw, hsource, hrhs⟩ := hrule
    refine .bind (.of_ok (htargets hw)) fun _ _ => ?_
    have hsource : ¬ scope.registers.widthOf source < width := Nat.not_lt.2 hsource
    unfold Scope.checkCast
    simp only [hsource, if_false]
    exact Scope.failsOnly_checkRhs hrhs.1
  | div quotient remainder witness dividend divisor =>
    obtain ⟨hw, hquotient, hremainder, hwitness⟩ := hrule
    refine .bind (.of_ok (htargets hw)) fun _ _ => ?_
    refine .bind (Scope.failsOnly_checkRhs hquotient.1) fun _ _ => ?_
    refine .bind (Scope.failsOnly_checkRhs hremainder.1) fun _ _ => ?_
    cases hused : witness.isUsed with
    | true => exact Scope.failsOnly_checkRhs (hwitness hused).1
    | false => exact .of_ok rfl
  | skip left right constant distance =>
    obtain ⟨hsides, -⟩ := hrule
    cases hused : right.isUsed with
    | true =>
      rw [hused, if_pos rfl] at hsides
      simp only [hused, if_true]
      exact .bind (.of_ok (Scope.checkSides_ok_iff.2 hsides)) fun _ _ =>
        scope.failsOnly_checkField _ _
    | false =>
      rw [hused, if_neg Bool.false_ne_true] at hsides
      simp only [hused, Bool.false_eq_true, if_false]
      exact .bind (.of_ok (Scope.checkConstant_ok_iff.2 hsides)) fun _ _ =>
        scope.failsOnly_checkField _ _
  | skipIf left right constant distance =>
    obtain ⟨hsides, -⟩ := hrule
    by_cases hright : right ≠ []
    · simp only [if_pos hright] at hsides ⊢
      exact .bind (.of_ok (Scope.checkSides_ok_iff.2 hsides)) fun _ _ =>
        scope.failsOnly_checkField _ _
    · simp only [if_neg hright] at hsides ⊢
      exact .bind (.of_ok (Scope.checkConstant_ok_iff.2 hsides)) fun _ _ =>
        scope.failsOnly_checkField _ _
  | call bus targets sources =>
    obtain ⟨hw, hcall⟩ := hrule
    exact .bind (.of_ok (htargets hw)) fun _ _ => .of_ok (Scope.checkCall_ok_iff.2 hcall)
  | jmp target =>
    have htarget : ¬ scope.instructions ≤ target := Nat.not_le.2 hrule
    exact .of_ok (if_neg htarget)
  | ret => exact .of_ok rfl
  | fail => exact .of_ok rfl

end Microcode

/-- An instruction of acceptable microcodes that flows and whose writes are settled is refused only
for a width. -/
theorem Instruction.failsOnly_validate {scope : Scope} {instruction : Instruction}
    (hne : instruction ≠ []) (hcodes : ∀ code ∈ instruction, code.Acceptable scope)
    (hflows : instruction.Flows) (hsettles : ∀ (offset : Nat) (code : Microcode),
      instruction[offset]? = some code → instruction.Settles offset code) :
    FailsOnly ValidationError.IsBandwidth (instruction.validate scope) := by
  unfold validate
  rw [if_neg hne]
  refine .bind (.forM fun code hcode => Microcode.failsOnly_validate (hcodes code hcode))
    fun _ _ => ?_
  refine .bind (.of_ok (checkFlow_ok_iff.2 hflows)) fun _ _ => ?_
  exact .of_ok (checkWrites_ok_iff.2 hsettles)

end LimbMachine
