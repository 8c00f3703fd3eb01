import LimbMachine.Proofs.Exec.Safety
import LimbMachine.Proofs.Split.Growth
import LimbMachine.Proofs.Split.Lines
import LimbMachine.Proofs.Split.Linking
import LimbMachine.Split.Routine

/-!
# Split routines

What splitting a routine gives, gathered in one place: every instruction is made up of the
expansions of its microcodes (`SplitRoutine.Expands`), each of which was made while the pool was on
its way to the final pool, and the split routine is accepted for the field (`SplitRoutine.Of`).
-/

namespace LimbMachine

/-- A microcode that splitting relies on: it is runnable and compares with constants that fit. -/
structure Microcode.Sound (rs : RegisterFile) (code : Microcode) : Prop where
  runnable : code.Runnable rs
  comparable : code.Comparable rs

/-- The fragments are an expansion made on the way to `pool`. -/
def Microcode.ExpandsTo (rs : RegisterFile) (pool : Pool) (offset : Nat) (code : Microcode)
    (fragments : List Fragment) : Prop :=
  ∃ early later, code.expand rs offset early = .ok fragments later ∧ early.Splits rs ∧
    later.Extends pool

section Growth

variable {rs : RegisterFile} {early later : Pool} {offset : Nat}

/-- Microcodes are expanded one after the other, in pools that grow. -/
theorem Instruction.expandFrom_ok {codes : List Microcode} {expansions : List (List Fragment)}
    (h : expandFrom rs offset codes early = .ok expansions later) (hs : early.Splits rs) :
    early.Extends later ∧ expansions.length = codes.length ∧
      ∀ (i : Nat) (code : Microcode), codes[i]? = some code →
        ∃ fragments, expansions[i]? = some fragments ∧
          code.ExpandsTo rs later (offset + i) fragments := by
  induction codes generalizing offset early expansions with
  | nil =>
    obtain ⟨rfl, rfl⟩ := estate_pure_ok.1 h
    exact ⟨.refl early, rfl, fun i code hi => by simp at hi⟩
  | cons first rest ih =>
    obtain ⟨fragments, mid, hfirst, h⟩ := estate_bind_ok.1 h
    obtain ⟨others, last, hrest, h⟩ := estate_bind_ok.1 h
    obtain ⟨rfl, rfl⟩ := estate_pure_ok.1 h
    have hgrows := Microcode.expand_grows hfirst
    obtain ⟨hext, hlength, hothers⟩ := ih hrest (hs.mono hgrows)
    refine ⟨hgrows.trans hext, by simp [hlength], fun i code hi => ?_⟩
    cases i with
    | zero =>
      cases hi
      exact ⟨fragments, rfl, early, mid, hfirst, hs, hext⟩
    | succ i =>
      obtain ⟨fragments', hget, hexpand⟩ := hothers i code hi
      rw [Nat.add_right_comm, Nat.add_assoc] at hexpand
      exact ⟨fragments', hget, hexpand⟩

/-- The expansions that make up a split instruction. -/
structure Instruction.Expands (rs : RegisterFile) (pool : Pool) (instruction : Instruction)
    (expansions : List (List Fragment)) : Prop where
  length_eq : expansions.length = instruction.length
  expand : ∀ {offset : Nat} {code : Microcode}, instruction[offset]? = some code →
    ∃ fragments, expansions[offset]? = some fragments ∧ code.ExpandsTo rs pool offset fragments

theorem Instruction.Expands.mono {instruction : Instruction} {expansions : List (List Fragment)}
    (h : instruction.Expands rs early expansions) (hext : early.Extends later) :
    instruction.Expands rs later expansions := by
  refine ⟨h.length_eq, fun hcode => ?_⟩
  obtain ⟨fragments, hget, p, q, hexpand, hp, hq⟩ := h.expand hcode
  exact ⟨fragments, hget, p, q, hexpand, hp, hq.trans hext⟩

/-- Instructions are split one after the other, in pools that grow. -/
theorem Instruction.splitAll_ok {instructions code : List Instruction}
    (h : splitAll rs instructions early = .ok code later) (hs : early.Splits rs) :
    early.Extends later ∧ code.length = instructions.length ∧
      ∀ (pc : Nat) (instruction : Instruction), instructions[pc]? = some instruction →
        ∃ expansions, code[pc]? = some (Fragment.link expansions) ∧
          instruction.Expands rs later expansions := by
  induction instructions generalizing early code with
  | nil =>
    obtain ⟨rfl, rfl⟩ := estate_pure_ok.1 h
    exact ⟨.refl early, rfl, fun pc instruction hpc => by simp at hpc⟩
  | cons first rest ih =>
    obtain ⟨first', mid, hfirst, h⟩ := estate_bind_ok.1 h
    obtain ⟨others, last, hrest, h⟩ := estate_bind_ok.1 h
    obtain ⟨rfl, rfl⟩ := estate_pure_ok.1 h
    obtain ⟨expansions, mid', hexpand, hlink⟩ := estate_bind_ok.1 hfirst
    obtain ⟨rfl, rfl⟩ := estate_pure_ok.1 hlink
    obtain ⟨hgrows, hlength, hcodes⟩ := expandFrom_ok hexpand hs
    obtain ⟨hext, hlength', hothers⟩ := ih hrest (hs.mono hgrows)
    refine ⟨hgrows.trans hext, by simp [hlength'], fun pc instruction hpc => ?_⟩
    cases pc with
    | zero =>
      cases hpc
      have hfirst : Instruction.Expands rs mid' first expansions :=
        ⟨hlength, fun {offset code} hcode => by
          simpa only [Nat.zero_add] using hcodes offset code hcode⟩
      exact ⟨expansions, rfl, hfirst.mono hext⟩
    | succ pc => exact hothers pc instruction hpc

end Growth

theorem Microcode.narrow_withSkip {rs : RegisterFile} {code : Microcode} {distance : Nat}
    (h : (code.withSkip distance).Narrow rs) : code.Narrow rs := by
  cases code with
  | assign targets rhs => exact h
  | sub targets sources constant => exact h
  | _ => trivial

/-- The fragments of a split instruction are narrow if its microcodes are. -/
theorem Fragment.narrow_of_link {rs : RegisterFile} {expansions : List (List Fragment)}
    {fragment : Fragment} (h : ∀ code ∈ link expansions, code.Narrow rs)
    (hmem : fragment ∈ expansions.flatten) : fragment.code.Narrow rs := by
  obtain ⟨before, rest, hflat⟩ := List.append_of_mem hmem
  have hnarrow := h _ (List.mem_of_getElem? (link_getElem? hflat))
  unfold settle at hnarrow
  cases hbranch : fragment.branch with
  | none =>
    rw [hbranch] at hnarrow
    exact hnarrow
  | some b =>
    rw [hbranch] at hnarrow
    exact Microcode.narrow_withSkip hnarrow

/-- What splitting a routine gives. -/
structure SplitRoutine.Of (split : SplitRoutine) (f : Routine) : Prop where
  registers_eq : split.routine.registers = split.pool.registers
  splits : split.pool.Splits f.registers
  length_eq : split.routine.code.length = f.code.length
  expands : ∀ {pc : Nat} {instruction : Instruction}, f.code[pc]? = some instruction →
    ∃ expansions, split.routine.code[pc]? = some (Fragment.link expansions) ∧
      instruction.Expands f.registers split.pool expansions
  narrow : ∀ instruction ∈ split.routine.code, ∀ code ∈ instruction,
    code.Narrow split.pool.registers

namespace Routine

variable {f : Routine} {field field' : FieldParams} {split : SplitRoutine}

theorem WellFormed.widthOf_lt (hf : f.WellFormed field) (id : RegId) :
    f.registers.widthOf id < Word.modulus :=
  hf.sized.widthOf_lt id

theorem WellFormed.sound (hf : f.WellFormed field) {instruction : Instruction}
    (hi : instruction ∈ f.code) {code : Microcode} (hc : code ∈ instruction) :
    code.Sound f.registers :=
  ⟨hf.runnable hi hc,
    Microcode.comparable_of_validate (hf.validate_code hi hc) (hf.sized.packed _ hi _ hc)⟩

/-- The parts of a split routine. -/
theorem splitWithLimbs_ok (h : f.splitWithLimbs field = .ok split) :
    ∃ code buses, Instruction.splitAll f.registers f.code
        (Pool.ofRegisters f.registers field.registerWidth) = .ok code split.pool ∧
      f.buses.mapM split.pool.splitBus = .ok buses ∧
      split.routine = ⟨f.name, split.pool.registers, buses, code⟩ ∧
      split.routine.validate field = .ok () := by
  unfold splitWithLimbs at h
  obtain ⟨-, h⟩ := except_check_ok.1 h
  cases hsplit : Instruction.splitAll f.registers f.code
      (Pool.ofRegisters f.registers field.registerWidth) with
  | error e pool =>
    rw [hsplit] at h
    cases h
  | ok code pool =>
    rw [hsplit] at h
    obtain ⟨buses, hbuses, h⟩ := except_bind_ok.1 h
    obtain ⟨routine, hmake, h⟩ := except_bind_ok.1 h
    obtain ⟨hvalid, h⟩ := except_check_ok.1 h
    cases h
    rw [except_mapError_ok] at hmake hvalid
    obtain ⟨-, -, rfl⟩ := except_map_ok.1 hmake
    exact ⟨code, buses, rfl, hbuses, rfl, hvalid⟩

theorem splitOf (h : f.splitWithLimbs field = .ok split) : split.Of f := by
  obtain ⟨code, buses, hsplit, -, hroutine, hvalid⟩ := splitWithLimbs_ok h
  have hs := Pool.splits_ofRegisters f.registers field.registerWidth
  obtain ⟨hext, hlength, hexpands⟩ := Instruction.splitAll_ok hsplit hs
  refine ⟨by rw [hroutine], hs.mono hext, by rw [hroutine]; exact hlength, fun hpc => ?_, ?_⟩
  · rw [hroutine]
    exact hexpands _ _ hpc
  · intro instruction hi code hc
    have hcode := (Instruction.validate_ok_iff.1
      ((validate_ok_iff.1 hvalid).2.2 instruction hi)).2.1 code hc
    have hnarrow := Microcode.narrow_of_validate hcode
    rwa [scope, hroutine] at hnarrow

theorem WellFormed.splitOf (_ : f.WellFormed field) (h : f.splitWithLimbs field' = .ok split) :
    split.Of f :=
  Routine.splitOf h

/-- The limb width is the register width of the field. -/
theorem split_width (h : f.splitWithLimbs field = .ok split) :
    split.pool.width = max field.registerWidth 1 := by
  obtain ⟨code, buses, hsplit, -, -, -⟩ := splitWithLimbs_ok h
  exact (Instruction.splitAll_ok hsplit (Pool.splits_ofRegisters _ _)).1.width_eq

end Routine

end LimbMachine
