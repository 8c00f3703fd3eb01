import LimbMachine.Check.Routine
import LimbMachine.Proofs.Exec.Storage

/-!
# What an accepted microcode satisfies

Each check of a microcode passes exactly when a plain statement about widths and ids holds. The
statements are collected, one case for each microcode, in `Microcode.Rule`, so that everything
proved about accepted routines starts from `Microcode.validate_ok_iff` and never from the checks.
-/

namespace LimbMachine

namespace Scope

variable {scope : Scope} {code : Microcode} {ids targets sources seen : List RegId} {lhs rhs : Nat}

/-- Distinct targets, none of them an input. -/
structure Writable (scope : Scope) (targets : List RegId) : Prop where
  notInput : ∀ id ∈ targets, scope.registers.isInput id = false
  nodup : targets.Nodup

/-- A right-hand side of `rhs` bits fits targets of `lhs` bits and one field element. -/
def Holds (scope : Scope) (lhs rhs : Nat) : Prop := rhs ≤ lhs ∧ rhs ≤ scope.field.bandwidth

theorem checkKnown_ok_iff : scope.checkKnown code = .ok () ↔
    ∀ id ∈ code.reads ++ code.writes, scope.registers.declares id = true := by
  unfold checkKnown
  cases h : (code.reads ++ code.writes).find? fun id => !scope.registers.declares id with
  | some id =>
    have hid := List.find?_some h
    have hmem := List.mem_of_find?_eq_some h
    simp only [reduceCtorEq, false_iff, not_forall]
    exact ⟨id, hmem, by simpa using hid⟩
  | none =>
    simp only [true_iff]
    intro id hid
    simpa using List.find?_eq_none.1 h id hid

theorem checkTargets_ok_iff : scope.checkTargets code seen targets = .ok () ↔
    scope.Writable targets ∧ ∀ id ∈ targets, id ∉ seen := by
  induction targets generalizing seen with
  | nil => exact ⟨fun _ => ⟨⟨by simp, .nil⟩, by simp⟩, fun _ => rfl⟩
  | cons target rest ih =>
    unfold checkTargets
    by_cases hin : scope.registers.isInput target = true
    · simp only [hin, if_true, reduceCtorEq, false_iff]
      intro h
      simpa [hin] using h.1.notInput target List.mem_cons_self
    · by_cases hseen : target ∈ seen
      · simp only [hin, hseen, if_true, Bool.false_eq_true, if_false, reduceCtorEq, false_iff]
        intro h
        exact h.2 target List.mem_cons_self hseen
      · simp only [hin, hseen, Bool.false_eq_true, if_false, ih]
        constructor
        · rintro ⟨hrest, hnot⟩
          refine ⟨⟨?_, ?_⟩, ?_⟩
          · simpa [hin] using hrest.notInput
          · exact List.nodup_cons.2 ⟨fun h => hnot target h List.mem_cons_self, hrest.nodup⟩
          · intro id hid
            rcases List.mem_cons.1 hid with rfl | hid
            · exact hseen
            · exact fun h => hnot id hid (List.mem_cons_of_mem _ h)
        · rintro ⟨hall, hnot⟩
          have hnd := List.nodup_cons.1 hall.nodup
          refine ⟨⟨fun id hid => hall.notInput id (List.mem_cons_of_mem _ hid), hnd.2⟩, ?_⟩
          intro id hid hmem
          rcases List.mem_cons.1 hmem with rfl | hmem
          · exact hnd.1 hid
          · exact hnot id (List.mem_cons_of_mem _ hid) hmem

theorem checkField_ok_iff :
    scope.checkField code rhs = .ok () ↔ rhs ≤ scope.field.bandwidth := by
  unfold checkField
  split
  · simp; omega
  · simp; omega

theorem checkCapacity_ok_iff : scope.checkCapacity code lhs rhs = .ok () ↔ rhs ≤ lhs := by
  unfold checkCapacity
  split
  · simp; omega
  · simp; omega

theorem checkRhs_ok_iff : scope.checkRhs code lhs rhs = .ok () ↔ scope.Holds lhs rhs := by
  simp [checkRhs, except_check_ok, checkCapacity_ok_iff, checkField_ok_iff, Holds]

theorem checkConstant_ok_iff {constant width : Nat} :
    scope.checkConstant code constant width = .ok () ↔ constant < 2 ^ width := by
  unfold checkConstant
  rw [← bitLength_le_iff]
  split
  · simp; omega
  · simp; omega

theorem checkSides_ok_iff : scope.checkSides code lhs rhs = .ok () ↔ lhs = rhs := by
  unfold checkSides
  split
  · simp; omega
  · simp; omega

theorem mismatchFrom_eq_none_iff {rs : RegisterFile} (line : Nat) {actual declared : List RegId}
    (hlen : actual.length = declared.length) :
    mismatchFrom rs line actual declared = none ↔ rs.widths actual = rs.widths declared := by
  induction actual generalizing declared line with
  | nil =>
    cases declared with
    | nil => simp [mismatchFrom]
    | cons d declared => simp at hlen
  | cons a actual ih =>
    cases declared with
    | nil => simp at hlen
    | cons d declared =>
      simp only [List.length_cons, Nat.add_right_cancel_iff] at hlen
      unfold mismatchFrom
      by_cases h : rs.widthOf a = rs.widthOf d
      · simp [h, ih _ hlen]
      · simp [h]

/-- Lines match when there are as many of them and their widths agree, line by line. -/
theorem lineMismatch_eq_none_iff {rs : RegisterFile} {actual declared : List RegId} :
    lineMismatch rs actual declared = none ↔ rs.widths actual = rs.widths declared := by
  unfold lineMismatch
  by_cases h : actual.length = declared.length
  · simp [h, mismatchFrom_eq_none_iff 0 h]
  · simp only [ne_eq, h, not_false_eq_true, if_true, reduceCtorEq, false_iff]
    intro he
    exact h (by simpa using congrArg List.length he)

/-- What a subtraction has to satisfy: some targets are exactly as wide as the minuend, and the
most that can be borrowed fits the others. -/
structure SubRule (scope : Scope) (targets : List RegId) (minuend : RegId)
    (subtrahends : List RegId) (constant pivot : Nat) : Prop where
  pivot_eq : subPivot targets scope.registers (scope.registers.widthOf minuend) = some pivot
  borrow_le : bitLength (borrowsFor (constant + (subtrahends.map scope.registers.maxOf).sum)
    (scope.registers.widthOf minuend)) ≤ scope.registers.totalWidth (targets.drop pivot)
  field_le : bitLength (scope.registers.maxOf minuend +
    borrowsFor (constant + (subtrahends.map scope.registers.maxOf).sum)
      (scope.registers.widthOf minuend) <<< scope.registers.widthOf minuend) ≤
    scope.field.bandwidth

theorem checkSub_ok_iff {constant : Nat} :
    scope.checkSub code targets sources constant = .ok () ↔ ∃ minuend subtrahends pivot,
      sources = minuend :: subtrahends ∧
        scope.SubRule targets minuend subtrahends constant pivot := by
  unfold checkSub
  cases sources with
  | nil => simp
  | cons minuend subtrahends =>
    simp only
    cases hp : subPivot targets scope.registers (scope.registers.widthOf minuend) with
    | none =>
      simp only [reduceCtorEq, List.cons.injEq, false_iff, not_exists, not_and, and_imp]
      rintro m s p rfl rfl hr
      rw [hr.pivot_eq] at hp
      cases hp
    | some pivot =>
      simp only [except_check_ok, checkCapacity_ok_iff, checkField_ok_iff]
      constructor
      · rintro ⟨hb, hf⟩
        exact ⟨minuend, subtrahends, pivot, rfl, hp, hb, hf⟩
      · rintro ⟨m, s, p, he, hr⟩
        cases he
        obtain rfl : pivot = p := by simpa [hr.pivot_eq] using hp.symm
        exact ⟨hr.borrow_le, hr.field_le⟩

theorem checkCast_ok_iff {source : RegId} {width : Nat} :
    scope.checkCast code targets source width = .ok () ↔
      width ≤ scope.registers.widthOf source ∧
        scope.Holds (scope.registers.totalWidth targets) width := by
  unfold checkCast
  by_cases h : scope.registers.widthOf source < width
  · simp only [h, if_true]
    constructor
    · intro he
      cases he
    · rintro ⟨hle, -⟩
      omega
  · simp only [h, if_false]
    rw [← @checkRhs_ok_iff scope code]
    constructor
    · intro he
      exact ⟨by omega, he⟩
    · exact fun he => he.2

theorem checkCall_ok_iff {bus : Nat} :
    scope.checkCall code bus targets sources = .ok () ↔
      ∃ declared, (scope.buses.find? fun b => b.id == some bus) = some declared ∧
        scope.registers.widths sources = scope.registers.widths declared.address ∧
        scope.registers.widths targets = scope.registers.widths declared.data := by
  unfold checkCall
  cases scope.buses.find? fun b => b.id == some bus with
  | none => simp
  | some declared =>
    simp only [Option.some.injEq, exists_eq_left']
    rw [← lineMismatch_eq_none_iff, ← lineMismatch_eq_none_iff]
    cases lineMismatch scope.registers sources declared.address with
    | some reason => simp
    | none =>
      cases lineMismatch scope.registers targets declared.data with
      | some reason => simp
      | none => simp

end Scope

namespace Microcode

/-- What is asked of a microcode apart from its registers being declared. -/
def Rule (scope : Scope) (code : Microcode) : Prop :=
  let rs := scope.registers
  match code with
  | assign targets _ | add targets _ _ | mul targets _ _ =>
    scope.Writable targets ∧
      scope.Holds (rs.totalWidth targets) ((code.polynomial?.getD .zero).width rs)
  | sub targets sources constant =>
    scope.Writable targets ∧ ∃ minuend subtrahends pivot,
      sources = minuend :: subtrahends ∧ scope.SubRule targets minuend subtrahends constant pivot
  | cast targets source width =>
    scope.Writable targets ∧ width ≤ rs.widthOf source ∧
      scope.Holds (rs.totalWidth targets) width
  | div quotient remainder witness dividend divisor =>
    scope.Writable code.writes ∧ scope.Holds (rs.widthOf quotient) (rs.widthOf dividend) ∧
      scope.Holds (rs.widthOf remainder) (rs.widthOf divisor) ∧
      (witness.isUsed = true → scope.Holds (rs.widthOf witness) (rs.widthOf divisor))
  | skip left right constant _ =>
    (if right.isUsed then rs.widthOf left = rs.widthOf right
      else constant < 2 ^ rs.widthOf left) ∧ rs.widthOf left ≤ scope.field.bandwidth
  | skipIf left right constant _ =>
    (if right ≠ [] then rs.totalWidth left = rs.totalWidth right
      else constant < 2 ^ rs.totalWidth left) ∧ rs.totalWidth left ≤ scope.field.bandwidth
  | call bus targets sources =>
    scope.Writable targets ∧
      ∃ declared, (scope.buses.find? fun b => b.id == some bus) = some declared ∧
        rs.widths sources = rs.widths declared.address ∧
        rs.widths targets = rs.widths declared.data
  | jmp target => target < scope.instructions
  | ret | fail => True

variable {scope : Scope}

/-- A sum or product has to fit its targets and the field. -/
theorem rule_sum_iff {code : Microcode} {p : Polynomial} (hp : code.polynomial? = some p) :
    code.Rule scope ↔ scope.Writable code.targets ∧
      scope.Holds (scope.registers.totalWidth code.targets) (p.width scope.registers) := by
  cases code with
  | assign targets rhs => cases hp; rfl
  | add targets sources constant => cases hp; rfl
  | mul targets sources constant => cases hp; rfl
  | _ => cases hp

theorem validate_ok_iff {code : Microcode} : code.validate scope = .ok () ↔
    (∀ id ∈ code.reads ++ code.writes, scope.registers.declares id = true) ∧
      code.Rule scope := by
  unfold validate
  rw [except_check_ok, Scope.checkKnown_ok_iff]
  refine and_congr_right fun _ => ?_
  cases code with
  | assign targets rhs =>
    simp [Rule, except_check_ok, Scope.checkTargets_ok_iff, Scope.checkRhs_ok_iff]
  | add targets sources constant =>
    simp [Rule, except_check_ok, Scope.checkTargets_ok_iff, Scope.checkRhs_ok_iff]
  | mul targets sources constant =>
    simp [Rule, except_check_ok, Scope.checkTargets_ok_iff, Scope.checkRhs_ok_iff]
  | sub targets sources constant =>
    simp [Rule, except_check_ok, Scope.checkTargets_ok_iff, Scope.checkSub_ok_iff]
  | cast targets source width =>
    simp [Rule, except_check_ok, Scope.checkTargets_ok_iff, Scope.checkCast_ok_iff]
  | div quotient remainder witness dividend divisor =>
    by_cases hw : witness.isUsed = true
    · simp [Rule, hw, except_check_ok, Scope.checkTargets_ok_iff, Scope.checkRhs_ok_iff]
    · simp [Rule, hw, except_check_ok, Scope.checkTargets_ok_iff, Scope.checkRhs_ok_iff, pure,
        Except.pure]
  | skip left right constant distance =>
    by_cases hr : right.isUsed = true
    · simp [Rule, hr, except_check_ok, Scope.checkSides_ok_iff, Scope.checkField_ok_iff]
    · simp [Rule, hr, except_check_ok, Scope.checkConstant_ok_iff, Scope.checkField_ok_iff]
  | skipIf left right constant distance =>
    by_cases hr : right = []
    · simp [Rule, hr, except_check_ok, Scope.checkConstant_ok_iff, Scope.checkField_ok_iff]
    · simp [Rule, hr, except_check_ok, Scope.checkSides_ok_iff, Scope.checkField_ok_iff]
  | call bus targets sources =>
    simp [Rule, except_check_ok, Scope.checkTargets_ok_iff, Scope.checkCall_ok_iff]
  | jmp target =>
    by_cases ht : scope.instructions ≤ target
    · simp [Rule, ht, throw, throwThe, MonadExceptOf.throw]
    · simp [Rule, ht, pure, Except.pure]
      omega
  | ret => simp [Rule, pure, Except.pure]
  | fail => simp [Rule, pure, Except.pure]

/-! ## Distances -/

@[simp] theorem reads_withSkip (distance : Nat) (code : Microcode) :
    (code.withSkip distance).reads = code.reads := by
  cases code with
  | _ => rfl

@[simp] theorem writes_withSkip (distance : Nat) (code : Microcode) :
    (code.withSkip distance).writes = code.writes := by
  cases code with
  | _ => rfl

@[simp] theorem isTerminal_withSkip (distance : Nat) (code : Microcode) :
    (code.withSkip distance).isTerminal = code.isTerminal := by
  cases code with
  | _ => rfl

theorem skipDistance_withSkip (distance : Nat) (code : Microcode) :
    (code.withSkip distance).skipDistance = code.skipDistance.map fun _ => distance := by
  cases code with
  | _ => rfl

theorem isTerminal_of_skipDistance {code : Microcode} (h : code.skipDistance.isSome = true) :
    code.isTerminal = false := by
  cases code with
  | skip left right constant distance => rfl
  | skipIf left right constant distance => rfl
  | _ => cases h

/-- The check of a microcode takes no notice of how far it branches. -/
theorem rule_withSkip_iff {code : Microcode} (distance : Nat) :
    (code.withSkip distance).Rule scope ↔ code.Rule scope := by
  cases code <;> exact Iff.rfl

theorem validate_withSkip_iff {code : Microcode} (distance : Nat) :
    (code.withSkip distance).validate scope = .ok () ↔ code.validate scope = .ok () := by
  rw [validate_ok_iff, validate_ok_iff, reads_withSkip, writes_withSkip, rule_withSkip_iff]

/-! ## Where control goes -/

section Successors

variable {code : Microcode} {offset next : Nat}

theorem landing_eq (offset distance : Nat) :
    landing offset distance = Word.add offset (Word.add 1 distance) := by
  unfold landing Word.add
  rw [Nat.mod_add_mod, Nat.add_mod_mod, Nat.add_assoc]

theorem landing_eq_add {distance : Nat} (h : offset + 1 + distance < Word.modulus) :
    landing offset distance = offset + 1 + distance := by
  have hnext : Word.add offset 1 = offset + 1 := Word.add_eq (by omega)
  rw [landing, hnext, Word.add_eq h]

/-- Control goes on to the next microcode or to where a comparison branches. -/
theorem mem_successors_iff : next ∈ code.successors offset ↔ code.isTerminal = false ∧
    (next = Word.add offset 1 ∨
      ∃ distance, code.skipDistance = some distance ∧ 0 < distance ∧
        next = landing offset distance) := by
  unfold successors
  cases hterm : code.isTerminal with
  | true => simp
  | false =>
    cases hskip : code.skipDistance with
    | none => simp
    | some distance =>
      cases distance with
      | zero => simp
      | succ distance => simp

/-- Where no distance runs past the largest size, control only moves forward. -/
theorem lt_of_mem_successors (hland : offset + 1 + code.skipDistance.getD 0 < Word.modulus)
    (h : next ∈ code.successors offset) : offset < next := by
  obtain ⟨-, rfl | ⟨distance, hskip, -, rfl⟩⟩ := mem_successors_iff.1 h
  · rw [Word.add_eq (by omega)]
    exact Nat.lt_succ_self offset
  · rw [hskip, Option.getD_some] at hland
    rw [landing_eq_add hland]
    omega

end Successors

end Microcode

namespace Instruction

variable {scope : Scope} {instruction : Instruction}

theorem checkSuccessor_ok_iff {length offset next : Nat} {code : Microcode} :
    checkSuccessor scope length code offset next = .ok () ↔ next < length := by
  unfold checkSuccessor
  split
  · simp; omega
  · split
    · simp; omega
    · simp; omega

/-- Control stays within the instruction. -/
def Flows (instruction : Instruction) : Prop :=
  ∀ (offset : Nat) (code : Microcode), instruction[offset]? = some code →
    ∀ next ∈ code.successors offset, next < instruction.length

theorem checkFlow_ok_iff : checkFlow scope instruction = .ok () ↔ instruction.Flows := by
  unfold checkFlow Flows
  rw [except_forM_ok]
  simp only [except_forM_ok, checkSuccessor_ok_iff]
  constructor
  · intro h offset code hcode
    exact h (code, offset) (List.mem_zipIdx_iff_getElem?.2 hcode)
  · rintro h ⟨code, offset⟩ hmem
    exact h offset code (List.mem_zipIdx_iff_getElem?.1 hmem)

theorem validate_ok_iff : instruction.validate scope = .ok () ↔
    instruction ≠ [] ∧ (∀ code ∈ instruction, code.validate scope = .ok ()) ∧
      instruction.Flows ∧ checkWrites scope instruction = .ok () := by
  unfold validate
  by_cases hnil : instruction = []
  · simp only [hnil, if_true, ne_eq, not_true_eq_false, false_and, iff_false]
    intro h
    cases h
  · rw [if_neg hnil]
    simp only [ne_eq, hnil, not_false_eq_true, true_and]
    rw [except_check_ok, except_check_ok, except_forM_ok, checkFlow_ok_iff]

end Instruction

theorem RegisterFile.isOrdered_iff {rs : RegisterFile} :
    rs.isOrdered = true ↔ rs.Pairwise fun a b => a.kind.rank ≤ b.kind.rank := by
  have htrans : IsTrans Register fun a b => a.kind.rank ≤ b.kind.rank :=
    ⟨fun _ _ _ => Nat.le_trans⟩
  rw [← List.isChain_iff_pairwise]
  fun_induction RegisterFile.isOrdered rs with
  | case1 a b rest ih => simp [ih]
  | case2 rs h =>
    match rs, h with
    | [], _ => simp
    | [a], _ => simp
    | a :: b :: rest, h => exact (h a b rest rfl).elim

namespace Routine

theorem checkOrder_ok_iff {f : Routine} :
    f.checkOrder = .ok () ↔ f.registers.isOrdered = true := by
  unfold checkOrder
  split
  · simp [*]
  · simp [*]

theorem validate_ok_iff {f : Routine} {field : FieldParams} : f.validate field = .ok () ↔
    field.validate = .ok () ∧ f.registers.isOrdered = true ∧
      ∀ instruction ∈ f.code, instruction.validate (f.scope field) = .ok () := by
  unfold validate
  rw [except_check_ok, except_check_ok, except_mapError_ok, checkOrder_ok_iff, except_forM_ok]
  refine and_congr_right fun _ => and_congr_right fun _ => ?_
  simp only [except_mapError_ok]
  constructor
  · intro h instruction hmem
    obtain ⟨pc, hpc⟩ := List.mem_iff_getElem?.1 hmem
    exact h (instruction, pc) (List.mem_zipIdx_iff_getElem?.2 hpc)
  · rintro h ⟨instruction, pc⟩ hmem
    exact h instruction (List.mem_of_getElem? (List.mem_zipIdx_iff_getElem?.1 hmem))

end Routine

end LimbMachine
