import LimbMachine.Proofs.Check.Rules
import LimbMachine.Proofs.Exec.Effect

/-!
# Accepted microcodes are runnable

The checks add up widths as sizes, which start over past the largest size. Where no such sum does
(`Microcode.Sized`), an accepted microcode is runnable: its bit accounting bounds what it stores.
-/

namespace LimbMachine

namespace Microcode

/-- The lists of ids whose widths are added up where a microcode is checked and executed. -/
def packedLists (rs : RegisterFile) : Microcode → List (List RegId)
  | assign targets _ | add targets _ _ | mul targets _ _ | cast targets _ _ => [targets]
  | sub targets sources _ =>
    let width := ((sources.head?).map rs.widthOf).getD 0
    let pivot := (subPivot targets rs width).getD targets.length
    [targets.take pivot, targets.drop pivot]
  | skipIf left right _ _ => [left, right]
  | _ => []

/-- No total width runs past the largest size. -/
def Sized (rs : RegisterFile) (code : Microcode) : Prop :=
  ∀ ids ∈ code.packedLists rs, (rs.widths ids).sum < Word.modulus

instance (rs : RegisterFile) (code : Microcode) : Decidable (code.Sized rs) :=
  inferInstanceAs (Decidable (∀ ids ∈ code.packedLists rs, (rs.widths ids).sum < Word.modulus))

end Microcode

/-! ## The pivot of a subtraction -/

section Pivot

variable {rs : RegisterFile} {targets : List RegId} {width sofar taken pivot : Nat}

/-- The targets up to the pivot are as wide as asked, up to whole multiples of the modulus. -/
theorem pivotFrom_width (hsofar : sofar < Word.modulus)
    (h : pivotFrom rs width sofar taken targets = some pivot) :
    ∃ count, pivot = taken + count ∧
      (sofar + (rs.widths (targets.take count)).sum) % Word.modulus = width := by
  induction targets generalizing sofar taken with
  | nil => cases h
  | cons target rest ih =>
    unfold pivotFrom at h
    simp only at h
    split at h
    · rename_i hreach
      cases h
      refine ⟨1, rfl, ?_⟩
      simpa [Word.add] using hreach
    · split at h
      · cases h
      · obtain ⟨count, hpivot, hsum⟩ := ih (Word.add_lt _ _) h
        refine ⟨count + 1, by omega, ?_⟩
        rw [Word.add, Nat.mod_add_mod] at hsum
        rw [List.take_succ_cons, RegisterFile.widths_cons, List.sum_cons, ← Nat.add_assoc]
        exact hsum

/-- The targets up to the pivot add up to the width asked for, as sizes do. -/
theorem subPivot_totalWidth (h : subPivot targets rs width = some pivot) :
    rs.totalWidth (targets.take pivot) = width := by
  unfold subPivot at h
  split at h
  · rename_i hzero
    cases h
    simp [RegisterFile.totalWidth, Word.sum, hzero]
  · obtain ⟨count, hpivot, hsum⟩ := pivotFrom_width Word.modulus_pos h
    rw [Nat.zero_add] at hpivot hsum
    subst hpivot
    exact hsum

/-- The targets up to the pivot are as wide as the minuend. -/
theorem subPivot_width (h : subPivot targets rs width = some pivot)
    (hsize : (rs.widths (targets.take pivot)).sum < Word.modulus) :
    (rs.widths (targets.take pivot)).sum = width :=
  (RegisterFile.totalWidth_eq hsize).symm.trans (subPivot_totalWidth h)

end Pivot

namespace Microcode

variable {scope : Scope} {code : Microcode} {targets : List RegId}

theorem declares_targets {rs : RegisterFile} (ht : code.targets = targets)
    (hknown : ∀ id ∈ code.reads ++ code.writes, rs.declares id = true) :
    ∀ id ∈ targets, id.isUsed = true → rs.declares id = true := by
  intro id hid hu
  refine hknown id (List.mem_append_right _ (List.mem_filter.2 ⟨?_, hu⟩))
  rw [ht]
  exact hid

/-- A subtraction under its rule is runnable once its two totals are sizes. -/
theorem subtractable_of_rule {minuend : RegId} {subtrahends : List RegId} {constant pivot : Nat}
    (hw : scope.Writable targets)
    (hdecl : ∀ id ∈ targets, id.isUsed = true → scope.registers.declares id = true)
    (hrule : scope.SubRule targets minuend subtrahends constant pivot)
    (hsized : (sub targets (minuend :: subtrahends) constant).Sized scope.registers) :
    scope.registers.Subtractable targets minuend subtrahends constant pivot := by
  have hlists : ∀ ids ∈ [targets.take pivot, targets.drop pivot],
      (scope.registers.widths ids).sum < Word.modulus := by
    intro ids hids
    refine hsized ids ?_
    simpa [packedLists, hrule.pivot_eq] using hids
  have hlow := hlists _ (List.mem_cons_self)
  have hhigh := hlists _ (List.mem_cons_of_mem _ (List.mem_cons_self))
  refine ⟨hw.nodup, hrule.pivot_eq, subPivot_width hrule.pivot_eq hlow, ⟨?_, ?_, hlow⟩,
    ⟨?_, ?_, hhigh⟩, ?_⟩
  · exact hw.nodup.sublist (List.take_sublist _ _)
  · exact fun id hid => hdecl id (List.mem_of_mem_take hid)
  · exact hw.nodup.sublist (List.drop_sublist _ _)
  · exact fun id hid => hdecl id (List.mem_of_mem_drop hid)
  · rw [← RegisterFile.totalWidth_eq hhigh]
    exact bitLength_le_iff.1 hrule.borrow_le

/-- The total width of the targets of a sum or product is a size. -/
theorem Sized.targets_lt {rs : RegisterFile} {p : Polynomial} (h : code.Sized rs)
    (hp : code.polynomial? = some p) : (rs.widths code.targets).sum < Word.modulus := by
  cases code with
  | assign targets rhs => exact h targets List.mem_cons_self
  | add targets sources constant => exact h targets List.mem_cons_self
  | mul targets sources constant => exact h targets List.mem_cons_self
  | _ => cases hp

/-- Bit accounting is sound: an accepted microcode stores only what fits. -/
theorem runnable_of_validate (hvalid : code.validate scope = .ok ())
    (hsized : code.Sized scope.registers) : code.Runnable scope.registers := by
  obtain ⟨hknown, hrule⟩ := validate_ok_iff.1 hvalid
  -- a right-hand side no wider than the targets is below `2 ^` their total width
  have hsum : ∀ {p : Polynomial}, code.polynomial? = some p →
      code.Runnable scope.registers := by
    intro p hp
    obtain ⟨hw, hfits⟩ := (rule_sum_iff hp).1 hrule
    have hroom := hsized.targets_lt hp
    have hmax := hfits.1
    rw [RegisterFile.totalWidth_eq hroom] at hmax
    exact (runnable_sum_iff hp).2
      ⟨⟨hw.nodup, declares_targets rfl hknown, hroom⟩, bitLength_le_iff.1 hmax⟩
  cases code with
  | assign targets rhs => exact hsum rfl
  | add targets sources constant => exact hsum rfl
  | mul targets sources constant => exact hsum rfl
  | sub targets sources constant =>
    obtain ⟨hw, minuend, subtrahends, pivot, rfl, hsub⟩ := hrule
    exact ⟨minuend, subtrahends, pivot, rfl,
      subtractable_of_rule hw (declares_targets rfl hknown) hsub hsized⟩
  | cast targets source width =>
    have hsize := hsized targets (by simp [packedLists])
    refine ⟨⟨hrule.1.nodup, declares_targets rfl hknown, hsize⟩, ?_⟩
    rw [← RegisterFile.totalWidth_eq hsize]
    exact hrule.2.2.1
  | div quotient remainder witness dividend divisor =>
    obtain ⟨hw, hquot, hrem, hwit⟩ := hrule
    exact ⟨hw.nodup, fun id hid => hknown id (List.mem_append_right _ hid), hquot.1, hrem.1,
      fun hu => (hwit hu).1⟩
  | skipIf left right constant distance =>
    exact ⟨hsized left (by simp [packedLists]), hsized right (by simp [packedLists])⟩
  | call bus targets sources =>
    exact ⟨hrule.1.nodup, fun id hid => hknown id (List.mem_append_right _ hid)⟩
  | skip left right constant distance => trivial
  | jmp target => trivial
  | ret => trivial
  | fail => trivial

/-- What the microcode computes is of a width that is a size. -/
def Narrow (rs : RegisterFile) : Microcode → Prop
  | assign _ rhs => rhs.width rs < Word.modulus
  | sub _ (minuend :: subtrahends) constant =>
    bitLength (borrowsFor (constant + (subtrahends.map rs.maxOf).sum) (rs.widthOf minuend)) <
      Word.modulus
  | _ => True

/-- A width that passed a check is at most some size. -/
theorem narrow_of_validate (hvalid : code.validate scope = .ok ()) :
    code.Narrow scope.registers := by
  obtain ⟨-, hrule⟩ := validate_ok_iff.1 hvalid
  cases code with
  | assign targets rhs => exact Nat.lt_of_le_of_lt hrule.2.1 (Word.sum_lt _)
  | sub targets sources constant =>
    obtain ⟨-, minuend, subtrahends, pivot, rfl, hsub⟩ := hrule
    exact Nat.lt_of_le_of_lt hsub.borrow_le (Word.sum_lt _)
  | _ => trivial

end Microcode

namespace Routine

/-- Every width is a size, and no sum of sizes that checking or running the routine takes runs past
the largest one. -/
structure Sized (f : Routine) : Prop where
  width_lt : ∀ r ∈ f.registers, r.width < Word.modulus
  packed : ∀ instruction ∈ f.code, ∀ code ∈ instruction, code.Sized f.registers
  landing : ∀ instruction ∈ f.code, ∀ entry ∈ instruction.zipIdx,
    entry.2 + 1 + entry.1.skipDistance.getD 0 < Word.modulus

theorem Sized.landing_lt {f : Routine} (h : f.Sized) {instruction : Instruction}
    (hi : instruction ∈ f.code) {offset : Nat} {code : Microcode}
    (hc : instruction[offset]? = some code) :
    offset + 1 + code.skipDistance.getD 0 < Word.modulus :=
  h.landing instruction hi (code, offset) (List.mem_zipIdx_iff_getElem?.2 hc)

theorem Sized.widthOf_lt {f : Routine} (h : f.Sized) (id : RegId) :
    f.registers.widthOf id < Word.modulus :=
  RegisterFile.widthOf_lt h.width_lt id

end Routine

end LimbMachine
