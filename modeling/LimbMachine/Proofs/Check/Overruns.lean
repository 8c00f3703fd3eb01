import LimbMachine.Proofs.Check.Accepted
import LimbMachine.Proofs.Check.Paths

/-!
# Checks on a machine that checks its sums

Such a machine gives up on a program rather than let a sum of sizes start over. What it accepts is
what is accepted otherwise and has no such sum: the total widths that are added up in a check are
sizes (`Microcode.Sized`), and so are the offsets that control may reach (`Instruction.Addressed`).
Results that ask for this therefore hold of everything that such a machine accepts.
-/

namespace LimbMachine

/-! ## Pivots -/

section Pivot

variable {rs : RegisterFile} {targets : List RegId} {width : Nat}

theorem lt_of_pivotFrom {sofar taken pivot : Nat}
    (h : pivotFrom rs width sofar taken targets = some pivot) : taken < pivot := by
  induction targets generalizing sofar taken with
  | nil => cases h
  | cons target rest ih =>
    unfold pivotFrom at h
    dsimp only at h
    split at h
    · cases h
      exact Nat.lt_succ_self taken
    · split at h
      · cases h
      · exact Nat.lt_of_succ_lt (ih h)

/-- Up to the pivot, the largest sum is the last one. -/
theorem pivotOverruns_eq {sofar taken count : Nat} (hsofar : sofar < Word.modulus)
    (h : pivotFrom rs width sofar taken targets = some (taken + count)) :
    pivotOverruns rs width sofar targets =
      Word.overruns (sofar + (rs.widths (targets.take count)).sum) := by
  induction targets generalizing sofar taken count with
  | nil => cases h
  | cons target rest ih =>
    have hpos := lt_of_pivotFrom h
    unfold pivotFrom at h
    unfold pivotOverruns
    dsimp only at h ⊢
    rcases Nat.lt_or_ge (sofar + rs.widthOf target) Word.modulus with hlt | hge
    · rw [Word.add_eq hlt] at h
      rw [Word.overruns_eq_false.2 hlt, Bool.false_or]
      split at h
      · rename_i hreach
        obtain rfl : count = 1 := by
          have := Option.some.inj h
          omega
        rw [decide_eq_false (by omega), Bool.false_and]
        simpa using (Word.overruns_eq_false.2 hlt).symm
      · rename_i hreach
        split at h
        · cases h
        · obtain ⟨later, hpivot, -⟩ := pivotFrom_width hlt h
          obtain rfl : count = later + 1 := by omega
          rw [hpivot] at h
          rw [decide_eq_true (by omega), Bool.true_and, ih hlt h, List.take_succ_cons,
            RegisterFile.widths_cons, List.sum_cons, Nat.add_assoc]
    · -- the pivot lies past the first target
      obtain ⟨later, rfl⟩ : ∃ later, count = later + 1 := ⟨count - 1, by omega⟩
      rw [List.take_succ_cons, RegisterFile.widths_cons, List.sum_cons,
        Word.overruns_eq_true.2 hge, Word.overruns_eq_true.2 (by omega), Bool.true_or]

/-- The sums on the way to the pivot overrun if the total width of the targets up to it does. -/
theorem subPivotOverruns_eq {pivot : Nat} (h : subPivot targets rs width = some pivot) :
    subPivotOverruns targets rs width = Word.overruns (rs.widths (targets.take pivot)).sum := by
  unfold subPivot at h
  unfold subPivotOverruns
  split at h
  · rename_i hzero
    cases h
    simp [hzero, Word.overruns, Word.modulus]
  · rename_i hne
    rw [← Nat.zero_add pivot] at h
    rw [pivotOverruns_eq Word.modulus_pos h, Nat.zero_add, decide_eq_true hne, Bool.true_and]

end Pivot

/-! ## Microcodes -/

theorem RegisterFile.overruns_eq_false {rs : RegisterFile} {ids : List RegId} :
    rs.overruns ids = false ↔ (rs.widths ids).sum < Word.modulus := Word.overruns_eq_false

namespace Microcode

variable {scope : Scope} {code : Microcode}

/-- On the check of an accepted microcode no sum overruns exactly if its total widths are sizes. -/
theorem checkOverruns_eq_false_iff (hvalid : code.validate scope = .ok ()) :
    code.checkOverruns scope = false ↔ code.Sized scope.registers := by
  obtain ⟨hknown, hrule⟩ := validate_ok_iff.1 hvalid
  have hok : (scope.checkKnown code).isOk = true := by rw [Scope.checkKnown_ok_iff.2 hknown]; rfl
  have hstores : ∀ {targets : List RegId}, scope.Writable targets →
      (scope.checkTargets code [] targets).isOk = true := fun hw => by
    rw [Scope.checkTargets_ok_iff.2 ⟨hw, fun _ _ => List.not_mem_nil⟩]
    rfl
  unfold checkOverruns Sized
  rw [hok, Bool.true_and]
  cases code with
  | assign targets rhs =>
    simp [hstores hrule.1, packedLists, RegisterFile.overruns_eq_false]
  | add targets sources constant =>
    simp [hstores hrule.1, packedLists, RegisterFile.overruns_eq_false]
  | mul targets sources constant =>
    simp [hstores hrule.1, packedLists, RegisterFile.overruns_eq_false]
  | sub targets sources constant =>
    obtain ⟨hw, minuend, subtrahends, pivot, rfl, hsub⟩ := hrule
    simp [hstores hw, packedLists, hsub.pivot_eq, subPivotOverruns_eq hsub.pivot_eq,
      RegisterFile.overruns_eq_false, Word.overruns_eq_false]
  | cast targets source width =>
    simp [hstores hrule.1, hrule.2.1, packedLists, RegisterFile.overruns_eq_false]
  | skipIf left right constant distance => simp [packedLists, RegisterFile.overruns_eq_false]
  | div quotient remainder witness dividend divisor => simp [packedLists]
  | skip left right constant distance => simp [packedLists]
  | call bus targets sources => simp [packedLists]
  | jmp target => simp [packedLists]
  | ret => simp [packedLists]
  | fail => simp [packedLists]

theorem offsetOverruns_eq_false_iff {offset : Nat} (hoffset : offset + 1 < Word.modulus) :
    code.offsetOverruns offset = false ↔
      offset + 1 + code.skipDistance.getD 0 < Word.modulus := by
  unfold offsetOverruns
  rw [Bool.and_eq_false_imp, Word.overruns_eq_false]
  refine ⟨fun h => ?_, fun h _ => h⟩
  cases hterm : code.isTerminal with
  | false => exact h (by rw [hterm]; rfl)
  | true =>
    -- a terminal microcode skips nothing
    cases hskip : code.skipDistance with
    | none => exact hoffset
    | some distance =>
      have hgoes : code.isTerminal = false := isTerminal_of_skipDistance (by rw [hskip]; rfl)
      rw [hterm] at hgoes
      cases hgoes

end Microcode

/-! ## Instructions and routines -/

namespace Instruction

variable {instruction : Instruction} {scope : Scope}

/-- On the check of an accepted instruction no sum overruns exactly if all total widths and all
offsets are sizes. -/
theorem checkOverruns_eq_false_iff (hlength : instruction.length < Word.modulus)
    (hvalid : instruction.validate scope = .ok ()) :
    instruction.checkOverruns scope = false ↔
      Addressed instruction ∧ ∀ code ∈ instruction, code.Sized scope.registers := by
  obtain ⟨-, hcodes, hflows, -⟩ := validate_ok_iff.1 hvalid
  have haccepts : ∀ code ∈ instruction, (code.validate scope).isOk = true := by
    intro code hcode
    rw [hcodes code hcode]
    rfl
  have hflow : checkFlow scope instruction = .ok () := checkFlow_ok_iff.2 hflows
  have hpassed : ∀ entry ∈ instruction.zipIdx, ((entry.1.successors entry.2).forM
      (checkSuccessor scope instruction.length entry.1 entry.2)).isOk = true :=
    fun entry hentry => congrArg Except.isOk (except_forM_ok.1 hflow entry hentry)
  unfold checkOverruns
  dsimp only
  rw [Word.passed_eq_self haccepts, List.all_eq_true.2 haccepts, Bool.true_and,
    Word.passed_eq_self hpassed, Bool.or_eq_false_iff,
    List.any_eq_false, List.any_eq_false, and_comm]
  refine and_congr ?_ ?_
  · refine forall₂_congr fun entry hentry => ?_
    have hlt := (List.getElem?_eq_some_iff.1 (List.mem_zipIdx_iff_getElem?.1 hentry)).1
    rw [Bool.not_eq_true]
    exact Microcode.offsetOverruns_eq_false_iff (by omega)
  · refine forall₂_congr fun code hcode => ?_
    rw [Bool.not_eq_true]
    exact Microcode.checkOverruns_eq_false_iff (hcodes code hcode)

theorem validate?_ok_iff (hlength : instruction.length < Word.modulus) :
    instruction.validate? scope = some (.ok ()) ↔ instruction.validate scope = .ok () ∧
      Addressed instruction ∧ ∀ code ∈ instruction, code.Sized scope.registers := by
  unfold validate?
  rw [Word.checked_eq_some, and_comm]
  exact and_congr_right (checkOverruns_eq_false_iff hlength)

end Instruction

namespace Routine

/-- A machine that checks its sums accepts the routines that are accepted and sized. -/
theorem validate?_ok_iff {f : Routine} {field : FieldParams}
    (hwidth : ∀ r ∈ f.registers, r.width < Word.modulus)
    (hlength : ∀ instruction ∈ f.code, instruction.length < Word.modulus) :
    f.validate? field = some (.ok ()) ↔ f.validate field = .ok () ∧ f.Sized := by
  unfold validate?
  rw [Word.checked_eq_some, and_comm]
  refine and_congr_right fun hvalid => ?_
  obtain ⟨hfield, hordered, hcode⟩ := validate_ok_iff.1 hvalid
  have haccepts : ∀ instruction ∈ f.code,
      (instruction.validate (f.scope field)).isOk = true := by
    intro instruction hi
    rw [hcode instruction hi]
    rfl
  unfold checkOverruns
  dsimp only
  rw [hfield, checkOrder_ok_iff.2 hordered, Word.passed_eq_self haccepts]
  simp only [Except.isOk, Except.toBool, Bool.true_and, List.any_eq_false, Bool.not_eq_true]
  constructor
  · intro h
    have hsized : ∀ instruction ∈ f.code, Instruction.Addressed instruction ∧
        ∀ code ∈ instruction, code.Sized f.registers := fun instruction hi =>
      (Instruction.checkOverruns_eq_false_iff (hlength _ hi) (hcode _ hi)).1 (h instruction hi)
    exact ⟨hwidth, fun instruction hi => (hsized instruction hi).2,
      fun instruction hi => (hsized instruction hi).1⟩
  · intro hsized instruction hi
    exact (Instruction.checkOverruns_eq_false_iff (hlength _ hi) (hcode _ hi)).2
      ⟨hsized.landing instruction hi, hsized.packed instruction hi⟩

end Routine

end LimbMachine
