import LimbMachine.Proofs.Split.Acceptance

/-!
# Narrow routines stay as they are

A register that is no wider than a limb is its own only limb (`Register.limbs_eq_singleton`). Where
all registers are, the pool is the register file itself (`Pool.Plain`), every microcode is its own
only fragment, and every comparison is settled to the distance it had
(`Instruction.link_fragments`). So splitting takes a narrow routine to itself.
-/

namespace LimbMachine

theorem Register.limbs_eq_singleton {r : Register} {width : Nat} (hwidth : r.width ≤ width)
    (hpad : r.fits r.pad = true) : r.limbs width = [r] := by
  have hslice : bitSlice r.pad 0 r.width = r.pad := by
    rw [bitSlice, Nat.shiftRight_zero, Nat.mod_eq_of_lt ((r.fits_iff r.pad).1 hpad)]
  simp [limbs, limbCount, limb, hwidth, hslice]

/-! ## Plain pools -/

namespace Pool

variable {pool : Pool} {rs : RegisterFile} {width : Nat} {code : Microcode}

/-- Every register is its own only limb, and there are no other registers. -/
structure Plain (pool : Pool) (rs : RegisterFile) : Prop where
  splits : pool.Splits rs
  registers_eq : pool.registers = rs
  base_eq : pool.base = rs.length
  limbs_eq : ∀ id, rs.declares id = true → pool.limbs? id = some [id]

theorem plain_ofRegisters (hnarrow : ∀ r ∈ rs, r.width ≤ width)
    (hpads : ∀ r ∈ rs, r.fits r.pad = true) : (ofRegisters rs width).Plain rs := by
  have hgroups : rs.map (Register.limbs (max width 1)) = rs.map fun r => [r] :=
    List.map_congr_left fun r hr => Register.limbs_eq_singleton
      (Nat.le_trans (hnarrow r hr) (Nat.le_max_left width 1)) (hpads r hr)
  have hflatten : ∀ l : List Register, (l.map fun r => [r]).flatten = l := fun l => by
    rw [← List.flatMap_def, List.flatMap_singleton']
  have hregisters : (ofRegisters rs width).registers = rs := by
    simp only [ofRegisters, hgroups, hflatten]
  refine ⟨splits_ofRegisters rs width, hregisters, congrArg List.length hregisters,
    fun id hid => ?_⟩
  obtain ⟨i, r, rfl, hr⟩ := RegisterFile.declares_iff.1 hid
  have hi : i ≤ rs.length := Nat.le_of_lt (List.getElem?_eq_some_iff.1 hr).1
  -- the limbs before those of a register are as many as the registers before it
  have hbefore : ((rs.map fun r => [r]).take i).flatten.length = i := by
    rw [← List.map_take, hflatten, List.length_take, Nat.min_eq_left hi]
  simp [limbs?, ofRegisters, hgroups, number_getElem?, hr, hbefore]

namespace Plain

variable (h : pool.Plain rs)

include h

theorem allocated_eq : pool.allocated = 0 := by
  rw [allocated, h.registers_eq, h.base_eq, Nat.sub_self]

theorem firstLimb_eq (id : RegId) : pool.firstLimb id = id := by
  cases hid : rs.declares id with
  | true => exact Pool.firstLimb_eq (h.limbs_eq id hid)
  | false =>
    rw [← h.splits.limbs?_isSome] at hid
    rw [firstLimb, Option.isNone_iff_eq_none.1 (Option.isSome_eq_false_iff.1 hid)]
    rfl

theorem isSingle_eq (hknown : ∀ id ∈ code.reads ++ code.writes, rs.declares id = true) :
    pool.isSingle code = .ok true := by
  have hgroup : ∀ id ∈ code.reads ++ code.writes, pool.tryLimbs id = .ok [id] :=
    fun id hid => tryLimbs_ok_iff.2 (h.limbs_eq id (hknown id hid))
  have hgroups : (code.reads ++ code.writes).mapM pool.tryLimbs =
      .ok ((code.reads ++ code.writes).map fun id => [id]) := by
    rw [except_mapM_ok, List.forall₂_map_right_iff, List.forall₂_same]
    exact hgroup
  rw [isSingle, hgroups, except_ok_bind]
  simp [pure, Except.pure]

theorem splitBus_eq {bus : Bus} (hlines : ∀ line ∈ bus.lines, rs.declares line = true) :
    pool.splitBus bus = .ok bus := by
  have hself : ∀ {ids : List RegId}, ids ⊆ bus.lines → ids.flatMap pool.group = ids := by
    intro ids hsub
    have hgroup : ∀ id ∈ ids, pool.group id = [id] :=
      fun id hid => group_eq (h.limbs_eq id (hlines id (hsub hid)))
    rw [List.flatMap_congr hgroup, List.flatMap_singleton']
  rw [h.splits.splitBus_eq hlines, Bus.expand, hself (List.subset_append_left ..),
    hself (List.subset_append_right ..)]

end Plain

end Pool

/-! ## Microcodes and instructions -/

namespace Microcode

theorem mapRegs_self {f : RegId → RegId} (h : ∀ id, f id = id) (code : Microcode) :
    code.mapRegs f = code := by
  have hmonomial : ∀ m : Monomial, m.mapVars (fun id => id) = m := fun m => by
    rw [Monomial.mapVars, List.map_id']
  have hpolynomial : ∀ p : Polynomial, p.mapVars (fun id => id) = p := fun p => by
    rw [Polynomial.mapVars, List.map_congr_left fun m _ => hmonomial m, List.map_id']
  cases code with
  | assign targets rhs => simp only [mapRegs, h, ite_self, List.map_id', hpolynomial]
  | _ => simp only [mapRegs, h, ite_self, List.map_id']

/-- The microcode as the fragment at its own offset. -/
def asFragment (code : Microcode) (offset : Nat) : Fragment :=
  ⟨code, code.skipDistance.map fun distance => .offset (landing offset distance)⟩

theorem expand_plain {pool : Pool} {rs : RegisterFile} {code : Microcode} (h : pool.Plain rs)
    (hknown : ∀ id ∈ code.reads ++ code.writes, rs.declares id = true) (offset : Nat) :
    code.expand rs offset pool = .ok [code.asFragment offset] pool := by
  have hsingle : Pool.asking (fun pool => pool.isSingle code) pool = .ok true pool :=
    Pool.asking_ok.2 ⟨h.isSingle_eq hknown, rfl⟩
  have hrename : code.rename offset pool = code.asFragment offset := by
    rw [rename, mapRegs_self h.firstLimb_eq]
    rfl
  rw [expand, estate_bind_of_ok hsingle, ← hrename]
  rfl

theorem withSkip_self {code : Microcode} {distance : Nat} (h : code.skipDistance = some distance) :
    code.withSkip distance = code := by
  cases code with
  | skip left right constant distance =>
    cases h
    rfl
  | skipIf left right constant distance =>
    cases h
    rfl
  | _ => cases h

end Microcode

namespace Instruction

variable {pool : Pool} {rs : RegisterFile} {instruction : Instruction}

/-- The microcodes from `offset` on, each as its own only fragment. -/
def fragments (offset : Nat) (instruction : Instruction) : List (List Fragment) :=
  (instruction.zipIdx offset).map fun entry => [entry.1.asFragment entry.2]

theorem expandFrom_plain (h : pool.Plain rs)
    (hknown : ∀ code ∈ instruction, ∀ id ∈ code.reads ++ code.writes, rs.declares id = true)
    (offset : Nat) :
    expandFrom rs offset instruction pool = .ok (instruction.fragments offset) pool := by
  induction instruction generalizing offset with
  | nil => rfl
  | cons code rest ih =>
    rw [List.forall_mem_cons] at hknown
    rw [expandFrom, estate_bind_of_ok (Microcode.expand_plain h hknown.1 offset),
      estate_bind_of_ok (ih hknown.2 (offset + 1))]
    rfl

theorem flatten_fragments (instruction : Instruction) : (instruction.fragments 0).flatten =
    instruction.zipIdx.map fun entry => entry.1.asFragment entry.2 := by
  rw [fragments, ← List.flatMap_def, ← List.map_eq_flatMap]

/-- Every microcode starts at its own offset. -/
theorem start_fragments {offset : Nat} (h : offset ≤ instruction.length) :
    Fragment.start (instruction.fragments 0) offset = offset := by
  rw [Fragment.start, fragments, ← List.map_take, ← List.flatMap_def, ← List.map_eq_flatMap,
    List.length_map, List.length_take, List.length_zipIdx, Nat.min_eq_left h]

/-- A comparison that stays within the instruction is settled to the distance it had. -/
theorem settle_asFragment {code : Microcode} {offset : Nat}
    (hland : ∀ distance, code.skipDistance = some distance →
      offset + 1 + distance < Word.modulus ∧ offset + 1 + distance ≤ instruction.length) :
    Fragment.settle (instruction.fragments 0) (code.asFragment offset) offset = code := by
  cases hskip : code.skipDistance with
  | none => simp [Fragment.settle, Microcode.asFragment, hskip]
  | some distance =>
    obtain ⟨hsize, hwithin⟩ := hland distance hskip
    have hlength : (instruction.fragments 0).length = instruction.length := by simp [fragments]
    simp only [Fragment.settle, Microcode.asFragment, hskip, Option.map_some]
    rw [Microcode.landing_eq_add hsize, Fragment.target_offset (by omega), start_fragments hwithin,
      Nat.add_sub_cancel_left, Microcode.withSkip_self hskip]

/-- The fragments of an instruction make it up again. -/
theorem link_fragments (hflows : instruction.Flows)
    (hskips : ∀ entry ∈ instruction.zipIdx, ∀ distance ∈ entry.1.skipDistance,
      entry.2 + 1 + distance < Word.modulus) :
    Fragment.link (instruction.fragments 0) = instruction := by
  have hland : ∀ (offset : Nat) (code : Microcode), instruction[offset]? = some code →
      ∀ distance, code.skipDistance = some distance →
        offset + 1 + distance < Word.modulus ∧ offset + 1 + distance ≤ instruction.length := by
    intro offset code hcode distance hskip
    have hsize := hskips (code, offset) (List.mem_zipIdx_iff_getElem?.2 hcode) distance hskip
    refine ⟨hsize, ?_⟩
    cases distance with
    | zero => exact (List.getElem?_eq_some_iff.1 hcode).1
    | succ distance =>
      have hterm : code.isTerminal = false := by
        cases code with
        | jmp target => cases hskip
        | ret => cases hskip
        | fail => cases hskip
        | _ => rfl
      have hnext := hflows offset code hcode (Microcode.landing offset (distance + 1))
        (Microcode.mem_successors_iff.2 ⟨hterm, .inr ⟨_, hskip, Nat.succ_pos _, rfl⟩⟩)
      rw [Microcode.landing_eq_add hsize] at hnext
      exact Nat.le_of_lt hnext
  have htrailer : ((instruction.fragments 0).flatten.any fun f => f.branch = some .trailer) =
      false := by
    rw [flatten_fragments, List.any_eq_false]
    intro fragment hmem
    obtain ⟨entry, -, rfl⟩ := List.mem_map.1 hmem
    simp [Microcode.asFragment]
  rw [Fragment.link, htrailer, flatten_fragments]
  apply List.ext_getElem?
  intro offset
  cases hcode : instruction[offset]? with
  | none => simp [hcode]
  | some code => simp [hcode, settle_asFragment (hland offset code hcode)]

theorem split_plain (h : pool.Plain rs)
    (hknown : ∀ code ∈ instruction, ∀ id ∈ code.reads ++ code.writes, rs.declares id = true)
    (hlink : Fragment.link (instruction.fragments 0) = instruction) :
    instruction.split rs pool = .ok instruction pool := by
  rw [split, estate_bind_of_ok (expandFrom_plain h hknown 0), hlink]
  rfl

theorem splitAll_plain {code : List Instruction}
    (h : ∀ instruction ∈ code, instruction.split rs pool = .ok instruction pool) :
    splitAll rs code pool = .ok code pool := by
  induction code with
  | nil => rfl
  | cons instruction rest ih =>
    rw [List.forall_mem_cons] at h
    rw [splitAll, estate_bind_of_ok h.1, estate_bind_of_ok (ih h.2)]
    rfl

end Instruction

/-! ## Routines -/

namespace Routine

variable {f : Routine} {field : FieldParams}

/-- **Narrow routines pass through splitting unchanged**, and nothing is allocated for them. -/
theorem split_narrow (hvalid : f.validate field = .ok ())
    (hnarrow : ∀ r ∈ f.registers, r.width ≤ field.registerWidth)
    (hpads : ∀ r ∈ f.registers, r.fits r.pad = true)
    (hlines : ∀ bus ∈ f.buses, ∀ line ∈ bus.lines, f.registers.declares line = true)
    (hskips : ∀ instruction ∈ f.code, ∀ entry ∈ instruction.zipIdx,
      ∀ distance ∈ entry.1.skipDistance, entry.2 + 1 + distance < Word.modulus) :
    ∃ split, f.splitWithLimbs field = .ok split ∧ split.routine = f ∧
      split.pool.allocated = 0 ∧ ∀ id, f.registers.declares id = true →
        split.pool.limbs? id = some [id] := by
  have hplain := Pool.plain_ofRegisters hnarrow hpads
  obtain ⟨hfield, hord, hcode⟩ := validate_ok_iff.1 hvalid
  have hsplit : Instruction.splitAll f.registers f.code
      (Pool.ofRegisters f.registers field.registerWidth) =
        .ok f.code (Pool.ofRegisters f.registers field.registerWidth) := by
    refine Instruction.splitAll_plain fun instruction hi => ?_
    obtain ⟨-, hcodes, hflows, -⟩ := Instruction.validate_ok_iff.1 (hcode instruction hi)
    refine Instruction.split_plain hplain (fun code hc => ?_)
      (Instruction.link_fragments hflows (hskips instruction hi))
    exact Scope.checkKnown_ok_iff.1 (except_check_ok.1 (hcodes code hc)).1
  have hbuses : f.buses.mapM (Pool.ofRegisters f.registers field.registerWidth).splitBus =
      .ok f.buses := by
    rw [except_mapM_ok, List.forall₂_same]
    exact fun bus hbus => hplain.splitBus_eq (hlines bus hbus)
  have hmake : make? f.name f.registers f.buses f.code = .ok f :=
    except_map_ok.2 ⟨(), checkOrder_ok_iff.2 hord, rfl⟩
  refine ⟨⟨f, Pool.ofRegisters f.registers field.registerWidth⟩, ?_, rfl, hplain.allocated_eq,
    hplain.limbs_eq⟩
  unfold splitWithLimbs
  rw [hfield, hsplit]
  simp only [hbuses, except_ok_bind, hplain.registers_eq, hmake, hvalid, Except.mapError]
  rfl

theorem split_narrow_tally :
    (tally.validate .koalaBear16 = .ok () ∧ ∀ r ∈ tally.registers, r.width ≤ 16) ∧
    ∃ split, tally.splitWithLimbs .koalaBear16 = .ok split ∧ split.routine = tally ∧
      split.pool.allocated = 0 ∧
        ∀ id, tally.registers.declares id = true → split.pool.limbs? id = some [id] := by
  have hvalid : tally.validate .koalaBear16 = .ok () := rfl
  have hnarrow : ∀ r ∈ tally.registers, r.width ≤ 16 := by decide
  exact ⟨⟨hvalid, hnarrow⟩, split_narrow hvalid hnarrow (by decide) (by decide) (by decide)⟩

end Routine

end LimbMachine
