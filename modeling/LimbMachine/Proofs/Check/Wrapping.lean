import LimbMachine.Exec.Step
import LimbMachine.Proofs.Check.Overruns
import LimbMachine.Proofs.Success

/-!
# Branches that wrap

Offsets and distances are sizes, and the offset to which a comparison branches is their sum modulo
the number of sizes. A distance may be so large that the sum runs past the largest size and starts
over: the branch then goes back, or to the comparison itself. The offset it reaches lies within the
instruction all the same, so the check of control accepts it, and the check of writes looks ahead
only. The check of an instruction therefore takes such a branch for none at all
(`Instruction.Sized.validate_unwrap_iff`). This is the only way in which the exact target of a
branch can lie outside of an accepted instruction. On a machine that checks its sums there is no
such branch in what is accepted, but where there is one the check has no answer.
-/

namespace LimbMachine

open Instruction (Way)

namespace Microcode

variable {code : Microcode} {offset next distance : Nat}

/-- A branch that wraps goes where its exact target lies, one round earlier. -/
theorem landing_add_modulus (hoffset : offset + 1 < Word.modulus)
    (hdistance : distance < Word.modulus) (hwraps : Word.modulus ≤ offset + 1 + distance) :
    landing offset distance + Word.modulus = offset + 1 + distance := by
  rw [landing, Word.add_eq hoffset, Word.add, Nat.mod_eq_sub_mod hwraps,
    Nat.mod_eq_of_lt (by omega)]
  omega

theorem landing_le (hoffset : offset + 1 < Word.modulus) (hdistance : distance < Word.modulus)
    (hwraps : Word.modulus ≤ offset + 1 + distance) : landing offset distance ≤ offset := by
  have heq := landing_add_modulus hoffset hdistance hwraps
  omega

/-- The microcode at an offset, without its branch if this wraps. -/
def unwrap (offset : Nat) (code : Microcode) : Microcode :=
  if Word.modulus ≤ offset + 1 + code.skipDistance.getD 0 then code.withSkip 0 else code

theorem unwrap_of_wraps (h : Word.modulus ≤ offset + 1 + code.skipDistance.getD 0) :
    code.unwrap offset = code.withSkip 0 := if_pos h

theorem unwrap_of_lt (h : offset + 1 + code.skipDistance.getD 0 < Word.modulus) :
    code.unwrap offset = code := if_neg (by omega)

@[simp] theorem reads_unwrap (offset : Nat) (code : Microcode) :
    (code.unwrap offset).reads = code.reads := by
  unfold unwrap
  split <;> simp

@[simp] theorem writes_unwrap (offset : Nat) (code : Microcode) :
    (code.unwrap offset).writes = code.writes := by
  unfold unwrap
  split <;> simp

theorem validate_unwrap_iff {scope : Scope} :
    (code.unwrap offset).validate scope = .ok () ↔ code.validate scope = .ok () := by
  unfold unwrap
  split
  · exact validate_withSkip_iff 0
  · exact Iff.rfl

/-- Without the branches that wrap every exact target is a size. -/
theorem unwrap_lt (hoffset : offset + 1 < Word.modulus) :
    offset + 1 + (code.unwrap offset).skipDistance.getD 0 < Word.modulus := by
  by_cases hwraps : Word.modulus ≤ offset + 1 + code.skipDistance.getD 0
  · rw [unwrap_of_wraps hwraps, skipDistance_withSkip]
    cases code.skipDistance with
    | none => exact hoffset
    | some distance => exact hoffset
  · rw [unwrap_of_lt (by omega)]
    omega

theorem mem_successors_of_unwrap (h : next ∈ (code.unwrap offset).successors offset) :
    next ∈ code.successors offset := by
  unfold unwrap at h
  split at h
  · obtain ⟨hterm, hnext | ⟨distance, hskip, hpos, -⟩⟩ := mem_successors_iff.1 h
    · rw [isTerminal_withSkip] at hterm
      exact mem_successors_iff.2 ⟨hterm, .inl hnext⟩
    · -- no distance is left
      rw [skipDistance_withSkip] at hskip
      obtain ⟨-, -, rfl⟩ := Option.map_eq_some_iff.1 hskip
      omega
  · exact h

/-- The successors that are lost with a branch that wraps do not lie ahead. -/
theorem mem_unwrap_or_le (hoffset : offset + 1 < Word.modulus)
    (hdistance : code.skipDistance.getD 0 < Word.modulus) (h : next ∈ code.successors offset) :
    next ∈ (code.unwrap offset).successors offset ∨ next ≤ offset := by
  by_cases hwraps : Word.modulus ≤ offset + 1 + code.skipDistance.getD 0
  · obtain ⟨hterm, hnext | ⟨distance, hskip, -, rfl⟩⟩ := mem_successors_iff.1 h
    · refine .inl (mem_successors_iff.2 ⟨?_, .inl hnext⟩)
      rw [unwrap_of_wraps hwraps, isTerminal_withSkip]
      exact hterm
    · rw [hskip, Option.getD_some] at hdistance hwraps
      exact .inr (landing_le hoffset hdistance hwraps)
  · rw [unwrap_of_lt (by omega)]
    exact .inl h

/-- A comparison goes on to the next microcode or branches. -/
theorem execute_comparison {σ : Type} {io : Boundary σ} {frame frame₁ : Frame σ} {step : Step}
    (hskip : code.skipDistance = some distance) (h : code.execute io frame = .ok step frame₁) :
    step = .skip 1 ∨ step = .skip (Word.add 1 distance) := by
  have hcompare : ∀ left right, Step.compare left right distance = .skip 1 ∨
      Step.compare left right distance = .skip (Word.add 1 distance) := by
    intro left right
    unfold Step.compare
    split
    · exact .inr rfl
    · exact .inl rfl
  unfold execute at h
  rw [estate_get_bind] at h
  cases code with
  | skip left right constant distance' =>
    cases hskip
    cases h
    exact hcompare _ _
  | skipIf left right constant distance' =>
    cases hskip
    cases h
    exact hcompare _ _
  | _ => cases hskip

end Microcode

/-- Ways only depend on what is written and on the successors that lie ahead. -/
theorem Instruction.Way.transfer {codes codes' : List Microcode} {offset : Nat}
    {written : List RegId}
    (hahead : ∀ (offset : Nat) (code : Microcode), codes[offset]? = some code →
      ∃ code' : Microcode, codes'[offset]? = some code' ∧ code'.writes = code.writes ∧
        ∀ next ∈ code.successors offset, offset < next → next ∈ code'.successors offset)
    (h : Way codes offset written) : Way codes' offset written := by
  induction h with
  | start => exact .start
  | step _ hcode hnext hlt ih =>
    obtain ⟨code', hcode', hwrites, hsuccessors⟩ := hahead _ _ hcode
    rw [← hwrites]
    exact .step ih hcode' (hsuccessors _ hnext hlt) hlt

namespace Instruction

variable {instruction : Instruction} {scope : Scope} {offset : Nat} {code : Microcode}

/-- There are fewer microcodes than sizes, and distances are sizes. -/
structure Sized (instruction : Instruction) : Prop where
  length_lt : instruction.length < Word.modulus
  distance_lt : ∀ code ∈ instruction, code.skipDistance.getD 0 < Word.modulus

theorem Sized.offset_lt (h : instruction.Sized) (hcode : instruction[offset]? = some code) :
    offset + 1 < Word.modulus := by
  have hlt := (List.getElem?_eq_some_iff.1 hcode).1
  have hlength := h.length_lt
  omega

theorem Sized.mem_unwrap_or_le (h : instruction.Sized) (hcode : instruction[offset]? = some code)
    {next : Nat} (hnext : next ∈ code.successors offset) :
    next ∈ (code.unwrap offset).successors offset ∨ next ≤ offset :=
  Microcode.mem_unwrap_or_le (h.offset_lt hcode) (h.distance_lt code (List.mem_of_getElem? hcode))
    hnext

/-- The instruction without the branches that wrap. -/
def unwrap (instruction : Instruction) : Instruction :=
  instruction.zipIdx.map fun entry => entry.1.unwrap entry.2

@[simp] theorem length_unwrap (instruction : Instruction) :
    instruction.unwrap.length = instruction.length := by
  simp [unwrap]

theorem getElem?_unwrap (instruction : Instruction) (offset : Nat) :
    instruction.unwrap[offset]? = instruction[offset]?.map (Microcode.unwrap offset) := by
  simp [unwrap, List.getElem?_zipIdx, Option.map_map, Function.comp_def]

theorem getElem?_unwrap_eq_some {code' : Microcode} : instruction.unwrap[offset]? = some code' ↔
    ∃ code, instruction[offset]? = some code ∧ code.unwrap offset = code' := by
  rw [getElem?_unwrap, Option.map_eq_some_iff]

theorem Sized.addressed_unwrap (h : instruction.Sized) : Addressed instruction.unwrap := by
  rintro ⟨code', offset⟩ hmem
  have hcode' : instruction.unwrap[offset]? = some code' := List.mem_zipIdx_iff_getElem?.1 hmem
  obtain ⟨code, hcode, rfl⟩ := getElem?_unwrap_eq_some.1 hcode'
  exact Microcode.unwrap_lt (h.offset_lt hcode)

theorem Sized.way_unwrap_iff (h : instruction.Sized) {written : List RegId} :
    Way instruction.unwrap offset written ↔ Way instruction offset written := by
  constructor
  · refine Way.transfer fun offset code' hcode' => ?_
    obtain ⟨code, hcode, rfl⟩ := getElem?_unwrap_eq_some.1 hcode'
    exact ⟨code, hcode, (Microcode.writes_unwrap offset code).symm,
      fun next hnext _ => Microcode.mem_successors_of_unwrap hnext⟩
  · refine Way.transfer fun offset code hcode => ?_
    refine ⟨_, getElem?_unwrap_eq_some.2 ⟨code, hcode, rfl⟩,
      Microcode.writes_unwrap offset code, ?_⟩
    intro next hnext hahead
    rcases h.mem_unwrap_or_le hcode hnext with hnext | hle
    · exact hnext
    · omega

theorem Sized.settles_unwrap_iff (h : instruction.Sized) :
    instruction.unwrap.Settles offset (code.unwrap offset) ↔ instruction.Settles offset code := by
  unfold Settles
  simp only [h.way_unwrap_iff, Microcode.reads_unwrap, Microcode.writes_unwrap]

theorem Sized.flows_unwrap_iff (h : instruction.Sized) :
    instruction.unwrap.Flows ↔ instruction.Flows := by
  unfold Flows
  rw [length_unwrap]
  constructor
  · intro hflows offset code hcode next hnext
    rcases h.mem_unwrap_or_le hcode hnext with hnext | hle
    · exact hflows offset _ (getElem?_unwrap_eq_some.2 ⟨code, hcode, rfl⟩) next hnext
    · -- the target of a branch that wraps lies no further on than the branch
      have hlt := (List.getElem?_eq_some_iff.1 hcode).1
      omega
  · intro hflows offset code' hcode' next hnext
    obtain ⟨code, hcode, rfl⟩ := getElem?_unwrap_eq_some.1 hcode'
    exact hflows offset code hcode next (Microcode.mem_successors_of_unwrap hnext)

/-- A check of every microcode, at its offset, may be made without the branches that wrap. -/
theorem forall_unwrap_iff {P : Nat → Microcode → Prop} :
    (∀ (offset : Nat) (code : Microcode), instruction.unwrap[offset]? = some code →
      P offset code) ↔ ∀ (offset : Nat) (code : Microcode), instruction[offset]? = some code →
        P offset (code.unwrap offset) := by
  simp only [getElem?_unwrap_eq_some]
  constructor
  · intro h offset code hcode
    exact h offset _ ⟨code, hcode, rfl⟩
  · rintro h offset _ ⟨code, hcode, rfl⟩
    exact h offset code hcode

/-- The check of an instruction takes a branch that wraps for none. -/
theorem Sized.validate_unwrap_iff (h : instruction.Sized) :
    instruction.unwrap.validate scope = .ok () ↔ instruction.validate scope = .ok () := by
  have hnil : instruction.unwrap ≠ [] ↔ instruction ≠ [] := by
    rw [← List.length_pos_iff, ← List.length_pos_iff, length_unwrap]
  have hcodes : ∀ codes : List Microcode, (∀ code ∈ codes, code.validate scope = .ok ()) ↔
      ∀ (offset : Nat) (code : Microcode), codes[offset]? = some code →
      code.validate scope = .ok () := by
    intro codes
    simp only [List.mem_iff_getElem?, forall_exists_index]
    exact forall_comm
  rw [validate_ok_iff, validate_ok_iff, checkWrites_ok_iff, checkWrites_ok_iff, hcodes, hcodes,
    forall_unwrap_iff, forall_unwrap_iff, hnil, h.flows_unwrap_iff]
  simp only [h.settles_unwrap_iff, Microcode.validate_unwrap_iff]

/-- In an instruction with accepted control the exact target of a branch lies inside, if it is a
size. -/
theorem Flows.target_lt (hflows : instruction.Flows) (hcode : instruction[offset]? = some code)
    {distance : Nat} (hskip : code.skipDistance = some distance)
    (hsize : offset + 1 + distance < Word.modulus) :
    offset + 1 + distance < instruction.length := by
  have hterm : code.isTerminal = false := Microcode.isTerminal_of_skipDistance (by rw [hskip]; rfl)
  refine hflows offset code hcode _ (Microcode.mem_successors_iff.2 ⟨hterm, ?_⟩)
  cases distance with
  | zero => exact .inl (Word.add_eq hsize).symm
  | succ distance =>
    exact .inr ⟨distance + 1, hskip, Nat.succ_pos distance,
      (Microcode.landing_eq_add hsize).symm⟩

/-- **Branches that wrap are accepted.** An instruction is accepted exactly if it is accepted
without the branches that wrap. In an accepted one the exact target of a branch lies inside exactly
if it is a size, that is, if the branch does not wrap. One that does goes back or to itself, and
this is where a run goes with it. A machine that checks its sums accepts what is accepted and wraps
nowhere, so there every exact target lies inside. -/
theorem accepts_wrapping (hsized : instruction.Sized) (scope : Scope) :
    (instruction.validate? scope = some (.ok ()) ↔ instruction.validate scope = .ok () ∧
      Addressed instruction ∧ ∀ code ∈ instruction, code.Sized scope.registers) ∧
    (instruction.validate? scope = some (.ok ()) →
      ∀ (offset : Nat) (code : Microcode) (distance : Nat), instruction[offset]? = some code →
        code.skipDistance = some distance → offset + 1 + distance < instruction.length) ∧
    Addressed instruction.unwrap ∧
    (instruction.unwrap.validate scope = .ok () ↔ instruction.validate scope = .ok ()) ∧
    (instruction.validate scope = .ok () → ∀ (offset : Nat) (code : Microcode) (distance : Nat),
      instruction[offset]? = some code → code.skipDistance = some distance →
      (offset + 1 + distance < instruction.length ↔ offset + 1 + distance < Word.modulus) ∧
      (Word.modulus ≤ offset + 1 + distance → Microcode.landing offset distance ≤ offset ∧
        ∀ {σ : Type} (io : Boundary σ) (frame frame₁ : Frame σ) (step : Step),
          code.execute io frame = .ok step frame₁ → step = .skip 1 ∨
            ∃ count, step = .skip count ∧
              Word.add offset count = Microcode.landing offset distance)) := by
  have hlength := hsized.length_lt
  have hiff : instruction.validate? scope = some (.ok ()) ↔
      instruction.validate scope = .ok () ∧
      Addressed instruction ∧ ∀ code ∈ instruction, code.Sized scope.registers :=
    validate?_ok_iff hlength
  refine ⟨hiff, ?_, hsized.addressed_unwrap, hsized.validate_unwrap_iff, ?_⟩
  · intro hchecked offset code distance hcode hskip
    obtain ⟨hvalid, haddressed, -⟩ := hiff.1 hchecked
    have hsize := haddressed.landing_lt hcode
    rw [hskip, Option.getD_some] at hsize
    exact (validate_ok_iff.1 hvalid).2.2.1.target_lt hcode hskip hsize
  · intro hvalid offset code distance hcode hskip
    have hflows : instruction.Flows := (validate_ok_iff.1 hvalid).2.2.1
    refine ⟨⟨fun hlt => by omega, hflows.target_lt hcode hskip⟩, fun hwraps => ⟨?_, ?_⟩⟩
    · have hdistance := hsized.distance_lt code (List.mem_of_getElem? hcode)
      rw [hskip, Option.getD_some] at hdistance
      exact Microcode.landing_le (hsized.offset_lt hcode) hdistance hwraps
    · intro σ io frame frame₁ step hexec
      refine (Microcode.execute_comparison hskip hexec).imp_right fun hstep => ?_
      exact ⟨_, hstep, (Microcode.landing_eq offset distance).symm⟩

/-- A comparison that branches to itself. -/
def spin : Instruction :=
  [.add [.reg 1] [.reg 0] 0, .skip (.reg 0) .unused 0 18446744073709551615, .ret]

/-- A comparison that branches back to the first microcode, if its register is not zero. -/
def rewind : Instruction :=
  [.add [.reg 1] [.reg 0] 0, .skip (.reg 0) .unused 0 18446744073709551614, .ret]

/-- Two registers of eight bits, the first of them the input. -/
def octets : Scope := ⟨.unbounded, [⟨.input, "x", 8, 0⟩, ⟨.output, "y", 8, 0⟩], [], 1⟩

theorem accepts_wrapping_spin :
    spin.Sized ∧ spin.validate octets = .ok () ∧
    spin.unwrap = [.add [.reg 1] [.reg 0] 0, .skip (.reg 0) .unused 0 0, .ret] ∧
    spin.unwrap.validate octets = .ok () ∧ ¬ 1 + 1 + 18446744073709551615 < spin.length ∧
    Microcode.landing 1 18446744073709551615 ≤ 1 ∧ spin.validate? octets ≠ some (.ok ()) := by
  have hsized : spin.Sized := ⟨by decide, by decide⟩
  have hvalid : spin.validate octets = .ok () := rfl
  obtain ⟨-, hchecked, -, hunwrap, hbranches⟩ := accepts_wrapping hsized octets
  obtain ⟨htarget, hback⟩ := hbranches hvalid 1 _ _ rfl rfl
  have hwraps : Word.modulus ≤ 1 + 1 + 18446744073709551615 := by decide
  have houtside : ¬ 1 + 1 + 18446744073709551615 < spin.length :=
    fun hlt => absurd (htarget.1 hlt) (Nat.not_lt.2 hwraps)
  exact ⟨hsized, hvalid, by decide +kernel, hunwrap.2 hvalid, houtside, (hback hwraps).1,
    fun hok => houtside (hchecked hok 1 _ _ rfl rfl)⟩

/-- The exact target of the branch lies far outside of the instruction, which is accepted, or on a
machine that checks its sums neither accepted nor refused. -/
theorem rewind_accepted :
    rewind.validate octets = .ok () ∧ rewind.validate? octets = none ∧
    rewind[1]? = some (.skip (.reg 0) .unused 0 18446744073709551614) ∧
    ¬ 1 + 1 + 18446744073709551614 < rewind.length ∧
    Microcode.landing 1 18446744073709551614 = 0 :=
  ⟨rfl, rfl, rfl, by decide, by decide⟩

end Instruction

end LimbMachine
