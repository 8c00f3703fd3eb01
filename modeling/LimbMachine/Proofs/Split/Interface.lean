import LimbMachine.Proofs.Split.Lockstep

/-!
# Inputs and outputs of a split routine

The inputs and outputs of a split routine are the limbs of the inputs and outputs
(`SplitRoutine.Of.inputIds_eq`, `SplitRoutine.Of.outputIds_eq`). A run that starts on the limbs of
the inputs starts in a state that represents the one in which a run on the inputs starts
(`SplitRoutine.Of.start_mirrors`), and outputs limb by limb are put together again
(`Pool.joinRuns_splitLines`).
-/

namespace LimbMachine

namespace Pool

variable {pool : Pool} {rs : RegisterFile} {id : RegId} {ids : List RegId} {vs : List Nat}

/-! ## Values in limbs -/

/-- Values cut into the values of their registers' limbs, one after the other. -/
def splitValues (pool : Pool) (ids : List RegId) (values : List Nat) : Option (List Nat) :=
  ((ids.zip values).mapM fun (id, value) => pool.splitValue id value).map List.flatten

/-- Values of limbs put together, as many for each register as it has limbs. -/
def joinRuns (pool : Pool) : List RegId → List Nat → Option (List Nat)
  | [], [] => some []
  | [], _ :: _ => none
  | id :: ids, values => do
    let limbs ← pool.limbs? id
    let value ← pool.joinValues id (values.take limbs.length)
    let rest ← pool.joinRuns ids (values.drop limbs.length)
    return value :: rest

/-- A declared register is laid out. -/
theorem Splits.layout_of_declares (h : pool.Splits rs) (hid : rs.declares id = true)
    (hsize : rs.widthOf id < Word.modulus) :
    ∃ limbs, pool.layout [id] = .ok limbs ∧ pool.LaidOut [id] limbs := by
  obtain ⟨limbIds, hlimbs⟩ := h.limbs_of_declares hid
  have hlayout : pool.layout [id] = .ok (pool.place 0 limbIds) := by
    rw [layout, flatten_singleton.2 hlimbs]
    rfl
  exact ⟨_, hlayout, h.laidOut (by simpa using hsize) hlayout⟩

theorem splitValue_eq (h : pool.Splits rs) (hid : rs.declares id = true)
    (hsize : rs.widthOf id < Word.modulus) (v : Nat) :
    pool.splitValue id v = some (Digits.cut (limbWidths pool.width (rs.widthOf id)) v) := by
  obtain ⟨limbs, hlayout, hlaid⟩ := h.layout_of_declares hid hsize
  rw [splitValue, hlayout]
  simp only
  rw [hlaid.contiguous.map_bitSlice, hlaid.map_width h, Nat.pow_zero, Nat.div_one]

theorem joinValues_eq (h : pool.Splits rs) (hid : rs.declares id = true)
    (hsize : rs.widthOf id < Word.modulus) {ds : List Nat}
    (hlen : ds.length = (limbWidths pool.width (rs.widthOf id)).length) :
    pool.joinValues id ds = some (Digits.join (limbWidths pool.width (rs.widthOf id)) ds) := by
  obtain ⟨limbs, hlayout, hlaid⟩ := h.layout_of_declares hid hsize
  have hcount : limbs.length = ds.length := by
    rw [hlen, ← hlaid.map_width h, List.length_map]
  rw [joinValues, hlayout]
  simp only [hcount, if_true]
  rw [hlaid.contiguous.sum_shiftLeft, hlaid.map_width h, Nat.pow_zero, Nat.one_mul]

/-- Splitting values register by register is splitting them as lines. -/
theorem splitValues_eq (h : pool.Splits rs) (hids : ∀ id ∈ ids, rs.declares id = true)
    (hsize : ∀ id, rs.widthOf id < Word.modulus) (hlen : vs.length = ids.length) :
    pool.splitValues ids vs = some (splitLines pool.width (rs.widths ids) vs) := by
  unfold splitValues
  induction ids generalizing vs with
  | nil => rfl
  | cons id ids ih =>
    match vs, hlen with
    | v :: vs, hlen =>
      have hrest := ih (fun id hid => hids id (List.mem_cons_of_mem _ hid)) (by simpa using hlen)
      obtain ⟨groups, hgroups, hflat⟩ := Option.map_eq_some_iff.1 hrest
      have hfirst := splitValue_eq h (hids id List.mem_cons_self) (hsize id) v
      simp only [List.zip_cons_cons, List.mapM_cons, hgroups, hfirst, Option.bind_eq_bind,
        Option.bind_some, Option.pure_def, Option.map_some, List.flatten_cons, hflat,
        RegisterFile.widths_cons, splitLines_cons]

/-- Values that fit are put together again. -/
theorem joinRuns_splitLines (h : pool.Splits rs) (hids : ∀ id ∈ ids, rs.declares id = true)
    (hsize : ∀ id, rs.widthOf id < Word.modulus) (hfit : Digits.Fit (rs.widths ids) vs) :
    pool.joinRuns ids (splitLines pool.width (rs.widths ids) vs) = some vs := by
  induction ids generalizing vs with
  | nil =>
    cases hfit
    rfl
  | cons id ids ih =>
    cases hfit with
    | @cons _ v _ vs hv hvs =>
      have hid := hids id List.mem_cons_self
      obtain ⟨limbs, hlimbs⟩ := h.limbs_of_declares hid
      have hlen : limbs.length = (Digits.cut (limbWidths pool.width (rs.widthOf id)) v).length := by
        rw [Digits.length_cut, ← (h.limbs_spec hlimbs).1, RegisterFile.length_widths]
      have hrest := ih (fun id hid => hids id (List.mem_cons_of_mem _ hid)) hvs
      rw [RegisterFile.widths_cons, splitLines_cons, joinRuns, hlimbs, Option.bind_eq_bind,
        Option.bind_some, hlen, List.take_left, List.drop_left,
        joinValues_eq h hid (hsize id) (Digits.length_cut _ _), hrest,
        Digits.join_cut_of_lt (by rw [sum_limbWidths h.width_pos]; exact hv)]
      rfl

end Pool

/-! ## The limbs of inputs and outputs -/

namespace Register

variable {r : Register} {width : Nat}

/-- The pads of the first limbs of a register are the first digits of its pad, as long as only the
last of these limbs may be narrower than the others. -/
theorem cut_pad (r : Register) (width k n : Nat) (h : n = 0 ∨ (k + n - 1) * width ≤ r.width) :
    Digits.cut ((List.range' k n).map fun i => min width (r.width - i * width))
        (r.pad / 2 ^ (k * width)) =
      (List.range' k n).map fun i =>
        bitSlice r.pad (i * width) (min width (r.width - i * width)) := by
  induction n generalizing k with
  | zero => rfl
  | succ n ih =>
    rw [List.range'_succ, List.map_cons, List.map_cons, Digits.cut_cons, bitSlice_eq]
    congr 1
    cases n with
    | zero => rfl
    | succ n =>
      have hle : (k + (n + 1)) * width ≤ r.width := by simpa using h
      have hmul : k * width + (n * width + width) = (k + (n + 1)) * width := by ring
      have hfull : min width (r.width - k * width) = width := by omega
      rw [hfull, Nat.div_div_eq_div_mul, ← Nat.pow_add, ← Nat.succ_mul]
      refine ih (k + 1) (.inr ?_)
      have hindex : k + 1 + (n + 1) - 1 = k + (n + 1) := by omega
      rw [hindex]
      exact hle

/-- All limbs but the last are full. -/
theorem limbCount_pred_mul_le (r : Register) (width : Nat) :
    (r.limbCount width - 1) * width ≤ r.width := by
  unfold limbCount
  split
  · simp
  · have hdiv := Nat.div_mul_le_self (r.width + width - 1) width
    rw [Nat.sub_one_mul]
    omega

/-- The pads of the limbs are the digits of the pad. -/
theorem map_pad_limbs (r : Register) (width : Nat) :
    (r.limbs width).map Register.pad = Digits.cut (limbWidths width r.width) r.pad := by
  have hcut := cut_pad r width 0 (r.limbCount width)
    (.inr (by rw [Nat.zero_add]; exact r.limbCount_pred_mul_le width))
  rw [Nat.zero_mul, Nat.pow_zero, Nat.div_one, ← List.range_eq_range'] at hcut
  rw [limbs, List.map_map]
  exact hcut.symm

end Register

/-- Limbs are inputs or outputs as their registers are, and registers that follow are neither. -/
structure RegisterFile.Cuts (p : Register → Bool) (limbs : Register → List Register)
    (extra : List Register) : Prop where
  ne_nil : ∀ r, limbs r ≠ []
  alike : ∀ r, ∀ limb ∈ limbs r, p limb = p r
  ends : ∀ r ∈ extra, p r = false

namespace RegisterFile.Cuts

variable {p : Register → Bool} {limbs : Register → List Register} {extra : List Register}

theorem takeWhile_eq (h : Cuts p limbs extra) (rs : RegisterFile) :
    ((rs.map limbs).flatten ++ extra).takeWhile p = ((rs.takeWhile p).map limbs).flatten := by
  induction rs with
  | nil =>
    cases extra with
    | nil => rfl
    | cons r extra => exact List.takeWhile_cons_of_neg (by simp [h.ends r List.mem_cons_self])
  | cons r rs ih =>
    rw [List.map_cons, List.flatten_cons, List.append_assoc]
    cases hp : p r with
    | true =>
      rw [List.takeWhile_append_of_pos fun limb hlimb => (h.alike r limb hlimb).trans hp, ih,
        List.takeWhile_cons_of_pos hp]
      rfl
    | false =>
      obtain ⟨first, rest, hlimbs⟩ := List.exists_cons_of_ne_nil (h.ne_nil r)
      have hfirst : p first = false := (h.alike r first (by simp [hlimbs])).trans hp
      rw [hlimbs, List.cons_append, List.takeWhile_cons_of_neg (by simp [hfirst]),
        List.takeWhile_cons_of_neg (by simp [hp])]
      rfl

theorem dropWhile_eq (h : Cuts p limbs extra) (rs : RegisterFile) :
    ((rs.map limbs).flatten ++ extra).dropWhile p =
      ((rs.dropWhile p).map limbs).flatten ++ extra := by
  induction rs with
  | nil =>
    cases extra with
    | nil => rfl
    | cons r extra => exact List.dropWhile_cons_of_neg (by simp [h.ends r List.mem_cons_self])
  | cons r rs ih =>
    cases hp : p r with
    | true =>
      rw [List.map_cons, List.flatten_cons, List.append_assoc,
        List.dropWhile_append_of_pos fun limb hlimb => (h.alike r limb hlimb).trans hp, ih,
        List.dropWhile_cons_of_pos hp]
    | false =>
      obtain ⟨first, rest, hlimbs⟩ := List.exists_cons_of_ne_nil (h.ne_nil r)
      have hfirst : p first = false := (h.alike r first (by simp [hlimbs])).trans hp
      rw [List.dropWhile_cons_of_neg (by simp [hp]), List.map_cons, List.flatten_cons, hlimbs]
      exact List.dropWhile_cons_of_neg (by simp [hfirst])

end RegisterFile.Cuts

namespace Pool

variable {pool : Pool} {rs : RegisterFile}

/-- The registers of a pool: limbs, and then registers that were allocated and start out empty. -/
theorem Splits.registers_eq (h : pool.Splits rs) : ∃ extra,
    pool.registers = (rs.map (Register.limbs pool.width)).flatten ++ extra ∧
      ∀ r ∈ extra, r.kind = .temp ∧ r.pad = 0 := by
  obtain ⟨width, hext⟩ := h
  rw [hext.width_eq]
  exact hext.grown

theorem number_append (start : Nat) (groups groups' : List (List Register)) :
    number start (groups ++ groups') =
      number start groups ++ number (start + groups.flatten.length) groups' := by
  induction groups generalizing start with
  | nil => simp [number]
  | cons group groups ih =>
    rw [List.cons_append, number, ih, number, List.flatten_cons, List.length_append, Nat.add_assoc]
    rfl

theorem length_number (start : Nat) (groups : List (List Register)) :
    (number start groups).length = groups.length := by
  induction groups generalizing start with
  | nil => rfl
  | cons group groups ih => simp [number, ih]

/-- The limbs of registers that stand side by side stand side by side. -/
theorem Splits.flatMap_group (h : pool.Splits rs) {before middle after : List Register}
    (hrs : rs = before ++ middle ++ after) :
    ((List.range' before.length middle.length).map RegId.reg).flatMap pool.group =
      (List.range' (before.map (Register.limbs pool.width)).flatten.length
        (middle.map (Register.limbs pool.width)).flatten.length).map RegId.reg := by
  have hlimbs := h.limbs_eq
  rw [hrs, List.map_append, List.map_append, number_append, number_append, Nat.zero_add] at hlimbs
  have hgroups : (List.range' before.length middle.length).map (fun i => pool.group (.reg i)) =
      number (before.map (Register.limbs pool.width)).flatten.length
        (middle.map (Register.limbs pool.width)) := by
    apply List.ext_getElem
    · simp [length_number]
    · intro i h₁ h₂
      have hi : i < middle.length := by simpa using h₁
      have hget : pool.limbs[before.length + i]? = (number
          (before.map (Register.limbs pool.width)).flatten.length
            (middle.map (Register.limbs pool.width)))[i]? := by
        rw [hlimbs, List.append_assoc, List.getElem?_append_right (by simp [length_number]),
          List.getElem?_append_left (by simpa [length_number] using hi), length_number,
          List.length_map, Nat.add_sub_cancel_left]
      rw [List.getElem?_eq_getElem h₂] at hget
      simp only [List.getElem_map, List.getElem_range', Nat.one_mul]
      exact group_eq hget
  rw [List.flatMap_map, ← flatten_number, ← hgroups, List.flatMap_def]

end Pool

theorem State.load_fresh (rs : RegisterFile) (id : RegId) :
    (fresh rs).load id = ((rs.find? id).map Register.pad).getD 0 := by
  cases id with
  | unused => rfl
  | reg i => simp [fresh, load, RegisterFile.find?]

namespace Routine

variable {f : Routine} {inputs : List Nat}

/-- Inputs come first and outputs next. -/
theorem registers_eq_append (f : Routine) :
    ∃ others, f.registers = f.inputs ++ f.outputs ++ others := by
  refine ⟨(f.registers.dropWhile Register.isInput).dropWhile Register.isOutput, ?_⟩
  rw [inputs, outputs, List.append_assoc, List.takeWhile_append_dropWhile,
    List.takeWhile_append_dropWhile]

theorem inputIds_eq_range' (f : Routine) :
    f.inputIds = (List.range' 0 f.inputs.length).map RegId.reg := by
  rw [inputIds, numInputs, List.range_eq_range']

theorem outputIds_eq_range' (f : Routine) :
    f.outputIds = (List.range' f.inputs.length f.outputs.length).map RegId.reg := by
  rw [outputIds, numInputs, numOutputs, List.range'_eq_map_range, List.map_map]
  rfl

theorem declares_inputIds : ∀ id ∈ f.inputIds, f.registers.declares id = true := by
  intro id hid
  obtain ⟨others, heq⟩ := f.registers_eq_append
  rw [inputIds_eq_range', List.mem_map] at hid
  obtain ⟨i, hi, rfl⟩ := hid
  rw [List.mem_range'_1] at hi
  rw [RegisterFile.declares_reg, heq, List.length_append, List.length_append]
  omega

theorem declares_outputIds : ∀ id ∈ f.outputIds, f.registers.declares id = true := by
  intro id hid
  obtain ⟨others, heq⟩ := f.registers_eq_append
  rw [outputIds_eq_range', List.mem_map] at hid
  obtain ⟨i, hi, rfl⟩ := hid
  rw [List.mem_range'_1] at hi
  rw [RegisterFile.declares_reg, heq, List.length_append, List.length_append]
  omega

/-- Registers that stand side by side have the widths they are declared with. -/
theorem widths_range' {rs : RegisterFile} {before middle after : List Register}
    (h : rs = before ++ middle ++ after) :
    rs.widths ((List.range' before.length middle.length).map RegId.reg) =
      middle.map Register.width := by
  apply List.ext_getElem
  · simp
  · intro i h₁ h₂
    have hi : i < middle.length := by simpa using h₂
    have hr : rs[before.length + i]? = some middle[i] := by
      rw [h, List.append_assoc, List.getElem?_append_right (by omega), Nat.add_sub_cancel_left,
        List.getElem?_append_left hi, List.getElem?_eq_getElem hi]
    simp only [RegisterFile.widths, List.getElem_map, List.getElem_range', Nat.one_mul]
    exact RegisterFile.widthOf_reg hr

theorem widths_inputIds (f : Routine) :
    f.registers.widths f.inputIds = f.inputs.map Register.width := by
  obtain ⟨others, hregs⟩ := f.registers_eq_append
  have hregs : f.registers = [] ++ f.inputs ++ (f.outputs ++ others) := by
    rw [hregs, List.nil_append, List.append_assoc]
  rw [inputIds_eq_range']
  exact widths_range' hregs

theorem widths_outputIds (f : Routine) :
    f.registers.widths f.outputIds = f.outputs.map Register.width := by
  obtain ⟨others, hregs⟩ := f.registers_eq_append
  rw [outputIds_eq_range']
  exact widths_range' hregs

/-- Inputs are accepted when they fit the widths of the inputs. -/
theorem accepts_iff : f.Accepts inputs ↔ Digits.Fit (f.registers.widths f.inputIds) inputs := by
  rw [widths_inputIds, Digits.Fit, List.forall₂_map_left_iff]
  exact ⟨fun h => h.imp fun r v => (Register.fits_iff r v).1,
    fun h => h.imp fun r v => (Register.fits_iff r v).2⟩

theorem Accepts.fit (h : f.Accepts inputs) :
    Digits.Fit (f.registers.widths f.inputIds) inputs := accepts_iff.1 h

end Routine

namespace SplitRoutine.Of

variable {f : Routine} {split : SplitRoutine} {field : FieldParams} {inputs : List Nat}

/-- Whether a register is an input or an output is the same for its limbs. -/
theorem exists_cuts (h : split.Of f) : ∃ extra,
    split.routine.registers = (f.registers.map (Register.limbs split.pool.width)).flatten ++
      extra ∧ RegisterFile.Cuts Register.isInput (Register.limbs split.pool.width) extra ∧
      RegisterFile.Cuts Register.isOutput (Register.limbs split.pool.width) extra ∧
      ∀ r ∈ extra, r.pad = 0 := by
  obtain ⟨extra, hregs, hextra⟩ := h.splits.registers_eq
  have hne := fun r : Register => r.limbs_ne_nil h.splits.width_pos
  refine ⟨extra, h.registers_eq.trans hregs, ⟨hne, fun r limb hlimb => ?_, fun r hr => ?_⟩,
    ⟨hne, fun r limb hlimb => ?_, fun r hr => ?_⟩, fun r hr => (hextra r hr).2⟩
  · rw [Register.isInput, Register.kind_of_mem_limbs hlimb, ← Register.isInput]
  · rw [Register.isInput, (hextra r hr).1]
    rfl
  · rw [Register.isOutput, Register.kind_of_mem_limbs hlimb, ← Register.isOutput]
  · rw [Register.isOutput, (hextra r hr).1]
    rfl

theorem inputs_eq (h : split.Of f) :
    split.routine.inputs = (f.inputs.map (Register.limbs split.pool.width)).flatten := by
  obtain ⟨extra, hregs, hin, -, -⟩ := h.exists_cuts
  rw [Routine.inputs, hregs, hin.takeWhile_eq]
  rfl

theorem outputs_eq (h : split.Of f) :
    split.routine.outputs = (f.outputs.map (Register.limbs split.pool.width)).flatten := by
  obtain ⟨extra, hregs, hin, hout, -⟩ := h.exists_cuts
  rw [Routine.outputs, hregs, hin.dropWhile_eq, hout.takeWhile_eq]
  rfl

/-- The inputs of a split routine are the limbs of the inputs. -/
theorem inputIds_eq (h : split.Of f) :
    split.routine.inputIds = f.inputIds.flatMap split.pool.group := by
  obtain ⟨others, hregs⟩ := f.registers_eq_append
  have hregs : f.registers = [] ++ f.inputs ++ (f.outputs ++ others) := by
    rw [hregs, List.nil_append, List.append_assoc]
  rw [Routine.inputIds_eq_range', Routine.inputIds_eq_range', h.inputs_eq]
  exact (h.splits.flatMap_group hregs).symm

/-- The outputs of a split routine are the limbs of the outputs. -/
theorem outputIds_eq (h : split.Of f) :
    split.routine.outputIds = f.outputIds.flatMap split.pool.group := by
  obtain ⟨others, hregs⟩ := f.registers_eq_append
  rw [Routine.outputIds_eq_range', Routine.outputIds_eq_range', h.inputs_eq, h.outputs_eq]
  exact (h.splits.flatMap_group hregs).symm

/-- The initial values of the limbs fit. -/
theorem pads_fit (h : split.Of f) : ∀ r ∈ split.routine.registers, r.fits r.pad = true := by
  intro r hr
  obtain ⟨extra, hregs, -, -, hpads⟩ := h.exists_cuts
  rw [hregs, List.mem_append] at hr
  rw [Register.fits_iff]
  rcases hr with hr | hr
  · obtain ⟨group, hgroup, hlimb⟩ := List.mem_flatten.1 hr
    obtain ⟨whole, -, rfl⟩ := List.mem_map.1 hgroup
    obtain ⟨i, -, rfl⟩ := List.mem_map.1 hlimb
    exact bitSlice_lt _ _ _
  · rw [hpads r hr]
    exact Nat.two_pow_pos _

/-- The limbs of inputs that fit fit the limbs. -/
theorem accepts (h : split.Of f) (hin : f.Accepts inputs) : split.routine.Accepts
    (splitLines split.pool.width (f.registers.widths f.inputIds) inputs) := by
  unfold Routine.Accepts at hin ⊢
  rw [h.inputs_eq, Routine.widths_inputIds]
  generalize f.inputs = rs at hin ⊢
  induction hin with
  | nil => exact .nil
  | @cons r v rs vs _ _ ih =>
    rw [List.map_cons, List.flatten_cons, List.map_cons, splitLines_cons]
    refine List.rel_append ?_ ih
    rw [← Register.map_width_limbs]
    have hfit := Digits.fit_cut ((r.limbs split.pool.width).map Register.width) v
    refine (List.forall₂_map_left_iff.1 hfit).imp fun limb d hd => ?_
    exact (Register.fits_iff limb d).2 hd

/-- Before a run each register and its limbs hold the same initial value. -/
theorem represents_fresh (h : split.Of f) (hpads : ∀ r ∈ f.registers, r.fits r.pad = true) :
    split.pool.Represents (State.fresh f.registers) (State.fresh split.routine.registers) := by
  refine ⟨h.splits, State.fits_fresh hpads, h.registers_eq, State.fits_fresh h.pads_fit, rfl,
    fun id => ?_⟩
  rw [Pool.read, State.load_fresh]
  cases hlimbs : split.pool.limbs? id with
  | none =>
    have hnone : f.registers.find? id = none := by
      have hdecl : (split.pool.limbs? id).isSome = f.registers.declares id := h.splits.limbs?_isSome
      rw [hlimbs] at hdecl
      exact Option.isNone_iff_eq_none.1 (Option.isSome_eq_false_iff.1 hdecl.symm)
    rw [hnone]
    rfl
  | some limbs =>
    obtain ⟨r, hr, hfind⟩ := h.splits.find?_limbs hlimbs
    have hpad : r.pad < 2 ^ (limbWidths split.pool.width r.width).sum := by
      rw [sum_limbWidths h.splits.width_pos, ← Register.fits_iff]
      obtain ⟨i, rfl, -⟩ := Pool.limbs?_eq_some_iff.1 hlimbs
      exact hpads r (List.mem_of_getElem? hr)
    have hload := congrArg (List.map fun limb => (limb.map Register.pad).getD 0) hfind
    rw [List.map_map, List.map_map] at hload
    have hload : limbs.map (State.fresh split.pool.registers).load =
        Digits.cut (limbWidths split.pool.width r.width) r.pad := by
      rw [← r.map_pad_limbs split.pool.width, List.map_congr_left fun id _ =>
        State.load_fresh split.pool.registers id]
      exact hload
    have hwidth : f.registers.widthOf id = r.width := by
      rw [RegisterFile.widthOf, hr]
      rfl
    rw [Option.getD_some, State.packed, h.registers_eq, hload, hr, Option.map_some,
      Option.getD_some, State.fresh, (h.splits.limbs_spec hlimbs).1, hwidth,
      Digits.join_cut_of_lt hpad]

end SplitRoutine.Of

/-! ## Both ends of a run -/

namespace Routine

variable {σ σ' : Type} {f : Routine} {split : SplitRoutine} {field : FieldParams}
  {inputs : List Nat} {trace : Bool} {R : σ → σ' → Prop} {t : Thread σ} {t' : Thread σ'}

/-- A run on inputs and a run on their limbs start alike. -/
theorem WellFormed.start_mirrors (hf : f.WellFormed field) (hsplit : split.Of f)
    (hin : f.Accepts inputs) (trace : Bool) {m : σ} {m' : σ'} (hm : R m m') :
    ∃ s s', f.start inputs = .ok s ∧
      split.routine.start (splitLines split.pool.width (f.registers.widths f.inputIds) inputs) =
        .ok s' ∧
      f.Mirrors split trace R { frame := ⟨s, m⟩ } { frame := ⟨s', m'⟩ } := by
  obtain ⟨s, hstart, hfits, hassigned⟩ := start_ok hf.padsFit hin
  obtain ⟨s', hstart', hfits', hassigned'⟩ := start_ok hsplit.pads_fit (hsplit.accepts hin)
  rw [hsplit.inputIds_eq] at hassigned'
  have hrep := (hsplit.represents_fresh hf.padsFit).assign_lines
    (fun id hid => .of_declares (declares_inputIds id hid)) hin.fit hassigned hfits
    hassigned' hfits'
  have hpc : s.pc = 0 := hassigned.pc_eq
  have hpc' : s'.pc = 0 := hassigned'.pc_eq
  refine ⟨s, s', hstart, hstart', hassigned.registers_eq, hpc'.trans hpc.symm, hm, fun _ => hrep,
    fun _ => ?_, fun _ => ?_⟩
  · have hcode := List.getElem?_eq_getElem (List.length_pos_of_ne_nil hf.nonempty)
    obtain ⟨expansions, hcode', hexp⟩ := hsplit.expands hcode
    have hpos := List.length_pos_of_ne_nil (hf.flows (List.mem_of_getElem? hcode)).1
    exact ⟨_, expansions, (congrArg (f.code[·]?) hpc).trans hcode, hpos,
      (congrArg (split.routine.code[·]?) hpc).trans hcode', hexp, rfl⟩
  · simp [Thread.arrived, Thread.entered, Thread.pc, State.isTerminated, hpc, hpc']

/-- Both runs return or both fail. -/
theorem Mirrors.outcome_eq (hm : f.Mirrors split trace R t t') :
    (split.routine.conclude t').outcome = (f.conclude t).outcome := by
  rw [conclude, conclude, hm.pc_eq]

theorem conclude_returned_iff : (f.conclude t).outcome = .returned ↔ t.pc = returnPc := by
  by_cases hpc : t.pc = returnPc
  · simp [conclude, hpc]
  · simp [conclude, hpc]

theorem outputs_conclude (hpc : t.pc = returnPc) :
    (f.conclude t).outputs = f.outputIds.map t.frame.state.load := by
  simp [conclude, hpc]

/-- A run over limbs that returns gives the limbs of the outputs. -/
theorem Mirrors.outputs_eq (hm : f.Mirrors split trace R t t') (hsplit : split.Of f)
    (hret : (f.conclude t).outcome = .returned) :
    Digits.Fit (f.registers.widths f.outputIds) (f.conclude t).outputs ∧
      (split.routine.conclude t').outputs =
        splitLines split.pool.width (f.registers.widths f.outputIds) (f.conclude t).outputs := by
  have hpc := conclude_returned_iff.1 hret
  have hrep := hm.represents (by rw [hpc]; decide)
  rw [outputs_conclude hpc, outputs_conclude (hm.pc_eq.trans hpc), hsplit.outputIds_eq]
  constructor
  · refine List.forall₂_map_left_iff.2
      (List.forall₂_map_right_iff.2 (List.forall₂_same.2 ?_))
    intro id _
    rw [← hm.registers_eq]
    exact hrep.fits.load_lt id
  · rw [← hm.registers_eq]
    exact hrep.map_load_lines fun id hid =>
      .of_declares (hm.registers_eq ▸ declares_outputIds id hid)

end Routine

end LimbMachine
