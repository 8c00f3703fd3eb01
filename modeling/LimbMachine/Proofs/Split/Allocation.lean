import LimbMachine.Proofs.Failure
import LimbMachine.Proofs.Split.Acceptance
import LimbMachine.Proofs.Split.Interface
import LimbMachine.Proofs.Split.Widths

/-!
# Pools after any history

A pool that was asked for registers or made to split instructions, also where it refused half of the
way, has only grown (`Pool.Appends`). The limbs are therefore those the pool was made with
(`Pool.Decomposes`), whatever happened since, and values go over to their limbs and back without
loss (`Pool.splitValue_inverse`).
-/

namespace LimbMachine

/-- The registers that a register is cut into at `width` bits: as few as possible, all full but the
last, which takes the bits that remain. -/
structure Register.CutInto (r : Register) (width : Nat) (limbs : List Register) : Prop where
  length_eq : limbs.length = max 1 ((r.width + width - 1) / width)
  width_eq : ∀ (i : Nat) (limb : Register), limbs[i]? = some limb →
    limb.width = if i + 1 < limbs.length then width else r.width - i * width
  sum_eq : (limbs.map Register.width).sum = r.width
  kind_eq : ∀ limb ∈ limbs, limb.kind = r.kind
  pad_eq : Digits.join (limbs.map Register.width) (limbs.map Register.pad) = r.pad

namespace Register

theorem limbCount_eq_max (r : Register) {width : Nat} (hw : 0 < width) :
    r.limbCount width = max 1 ((r.width + width - 1) / width) := by
  unfold limbCount
  split
  · have hlt : (r.width + width - 1) / width < 2 := (Nat.div_lt_iff_lt_mul hw).2 (by omega)
    omega
  · have hpos : 0 < (r.width + width - 1) / width := Nat.div_pos (by omega) hw
    omega

theorem le_limbCount_mul (r : Register) {width : Nat} (hw : 0 < width) :
    r.width ≤ r.limbCount width * width := by
  unfold limbCount
  split
  · omega
  · have hdiv := Nat.div_add_mod (r.width + width - 1) width
    have hmod := Nat.mod_lt (r.width + width - 1) hw
    rw [Nat.mul_comm] at hdiv
    omega

theorem cutInto_limbs {r : Register} {width : Nat} (hw : 0 < width) (hpad : r.fits r.pad = true) :
    r.CutInto width (r.limbs width) := by
  have hlength : (r.limbs width).length = r.limbCount width := by simp [limbs]
  refine ⟨hlength.trans (r.limbCount_eq_max hw), fun i limb hget => ?_, ?_,
    fun limb hmem => kind_of_mem_limbs hmem, ?_⟩
  · obtain ⟨hi, rfl⟩ := List.getElem?_eq_some_iff.1 hget
    have hfull := r.limbCount_pred_mul_le width
    have hreach := r.le_limbCount_mul hw
    rw [hlength] at hi ⊢
    have hlimb : ((r.limbs width).get ⟨i, hlength ▸ hi⟩).width =
        min width (r.width - i * width) := by
      simp [limbs, limb]
    refine hlimb.trans ?_
    split
    · rename_i hbelow
      have hle : (i + 1) * width ≤ (r.limbCount width - 1) * width :=
        Nat.mul_le_mul_right width (by omega)
      rw [Nat.succ_mul] at hle
      omega
    · obtain rfl : i = r.limbCount width - 1 := by omega
      rw [Nat.sub_one_mul] at hfull ⊢
      omega
  · rw [map_width_limbs, sum_limbWidths hw]
  · have hlt : r.pad < 2 ^ (limbWidths width r.width).sum := by
      rw [sum_limbWidths hw, ← fits_iff]
      exact hpad
    rw [map_width_limbs, map_pad_limbs, Digits.join_cut_of_lt hlt]

end Register

namespace Pool

variable {pool : Pool} {rs : RegisterFile} {width : Nat}

/-- The pool holds the limbs of the registers `rs`, one register after the other, and after them
registers of some width that are neither inputs nor outputs. -/
structure Decomposes (pool : Pool) (rs : RegisterFile) (width : Nat) : Prop where
  width_eq : pool.width = width
  ids_eq : pool.limbs.flatten = (List.range pool.base).map .reg
  known : ∀ id, (pool.limbs? id).isSome = rs.declares id
  cut : ∀ id ids, pool.limbs? id = some ids → ∃ r limbs, rs.find? id = some r ∧
    ids.map pool.registers.find? = limbs.map some ∧ r.CutInto width limbs
  base_le : pool.base ≤ pool.registers.length
  scratch : ∀ (i : Nat) (r : Register), pool.base ≤ i → pool.registers[i]? = some r →
    r.kind = .temp ∧ 0 < r.width

theorem Appends.decomposes (h : (ofRegisters rs width).Appends pool)
    (hpads : ∀ r ∈ rs, r.fits r.pad = true) : pool.Decomposes rs (max width 1) := by
  have hs : pool.Splits rs := ⟨width, h.toExtends⟩
  have hwidth : pool.width = max width 1 := h.width_eq
  have hbase : pool.base = (ofRegisters rs width).registers.length := h.base_eq
  have hpre := h.registers
  refine ⟨hwidth, ?_, fun id => hs.limbs?_isSome, fun id ids hids => ?_,
    hbase ▸ hpre.length_le, ?_⟩
  · rw [hs.limbs_eq, flatten_number, List.range_eq_range', hwidth, hbase]
    rfl
  · obtain ⟨r, hr, hfind⟩ := hs.find?_limbs hids
    have hmem : r ∈ rs := by
      obtain ⟨i, rfl, -⟩ := limbs?_eq_some_iff.1 hids
      exact List.mem_of_getElem? hr
    rw [← hwidth]
    exact ⟨r, _, hr, hfind, Register.cutInto_limbs hs.width_pos (hpads r hmem)⟩
  · intro i r hi hr
    obtain ⟨extra, heq, hextra⟩ := h.grown
    have hmem : r ∈ extra := by
      rw [heq, List.getElem?_append_right (by omega)] at hr
      exact List.mem_of_getElem? hr
    have hwide := h.wide i (by omega) (List.getElem?_eq_some_iff.1 hr).1
    rw [RegisterFile.widthOf_reg hr] at hwide
    exact ⟨(hextra r hmem).1, hwide⟩

/-- What can be asked of a pool. -/
inductive Request where
  | allocate (label : String) (width : Nat)
  | split (registers : RegisterFile) (instruction : Instruction)

/-- The pool that a request leaves, granted or refused. -/
def serve (pool : Pool) : Request → Pool
  | .allocate label width => finalState (Pool.allocate label width pool)
  | .split rs instruction => finalState (instruction.split rs pool)

/-- The pool that requests leave, one after the other. -/
def after (pool : Pool) (requests : List Request) : Pool := requests.foldl serve pool

theorem appends_serve (pool : Pool) (request : Request) : pool.Appends (pool.serve request) := by
  cases request with
  | allocate label width => exact keeps_allocate label width pool
  | split rs instruction => exact instruction.keeps_split pool

theorem appends_after (pool : Pool) (requests : List Request) :
    pool.Appends (pool.after requests) := by
  induction requests generalizing pool with
  | nil => exact refl_of Appends pool
  | cons request rest ih => exact trans_of Appends (pool.appends_serve request) (ih _)

/-- **Pools keep their shape**: after any requests, granted or refused, the limbs are numbered from
zero on, make up the registers they were cut from and stand in order if these do; further requests
leave all this as it is; and a register that is allocated comes last, under an id of its own. -/
theorem decomposes_after (hpads : ∀ r ∈ rs, r.fits r.pad = true) {requests : List Request}
    (hpool : (ofRegisters rs width).after requests = pool) :
    pool.Decomposes rs (max width 1) ∧
    (rs.isOrdered = true → pool.registers.isOrdered = true) ∧
    (∀ more, pool.Appends (pool.after more)) ∧
    ∀ label bits, if bits = 0 then allocate label bits pool = .ok .unused pool
      else ∃ r, r.kind = .temp ∧ r.width = bits ∧ allocate label bits pool =
        .ok (.reg pool.registers.length) { pool with registers := pool.registers ++ [r] } := by
  have happends := appends_after (ofRegisters rs width) requests
  rw [hpool] at happends
  refine ⟨happends.decomposes hpads, fun hord => ?_, pool.appends_after, fun label bits => ?_⟩
  · exact Splits.isOrdered ⟨width, happends.toExtends⟩ hord
  · unfold allocate
    split
    · rfl
    · exact ⟨_, rfl, rfl, rfl⟩

/-- Registers of no width, of less than a limb, of whole limbs and of some bits more. -/
def mixed : RegisterFile :=
  [⟨.input, "x", 20, 0⟩, ⟨.output, "y", 16, 0⟩, ⟨.const, "k", 11, 1500⟩,
    ⟨.temp, "z", 0, 0⟩]

/-- A sum that does not fit `y` is refused after its first carry was allocated. -/
def crowded : Pool :=
  (ofRegisters mixed 8).after [.allocate "t" 3, .split mixed [.add [.reg 1] [.reg 0, .reg 2] 0]]

theorem decomposes_after_crowded :
    ((∀ r ∈ mixed, r.fits r.pad = true) ∧ mixed.isOrdered = true ∧
      crowded.allocated = 2) ∧
    crowded.Decomposes mixed 8 ∧ crowded.registers.isOrdered = true ∧
      crowded.Appends (crowded.after [.split mixed [.ret], .allocate "u" 0]) := by
  have hpads : ∀ r ∈ mixed, r.fits r.pad = true := by decide
  have hord : mixed.isOrdered = true := by decide
  have hpool : (ofRegisters mixed 8).after _ = crowded := rfl
  obtain ⟨hshape, hordered, hmore, -⟩ := decomposes_after hpads hpool
  exact ⟨⟨hpads, hord, by decide⟩, hshape, hordered hord, hmore _⟩

/-! ## Values and their limbs -/

variable {id : RegId} {limbs : List RegId}

theorem after_splits (rs : RegisterFile) (width : Nat) (requests : List Request) :
    ((ofRegisters rs width).after requests).Splits rs :=
  ⟨width, (appends_after _ requests).toExtends⟩

/-- An id without a register has no limbs to put a value into or to take one from. -/
theorem Splits.layout_of_not_declares (h : pool.Splits rs) (hid : rs.declares id = false) :
    ∃ e, pool.layout [id] = .error e := by
  cases hlayout : pool.layout [id] with
  | error e => exact ⟨e, rfl⟩
  | ok limbs =>
    obtain ⟨limbIds, hflat, -⟩ := except_map_ok.1 hlayout
    have hdecl := h.declares_of_flatten hflat id List.mem_cons_self
    rw [hid] at hdecl
    cases hdecl

section Limbs

variable (h : pool.Splits rs) (hlimbs : pool.limbs? id = some limbs)
  (hsize : rs.widthOf id < Word.modulus)

include h hlimbs

theorem Splits.declares_of_limbs : rs.declares id = true := by
  rw [← h.limbs?_isSome, hlimbs]
  rfl

theorem Splits.sum_widths_limbs : (pool.registers.widths limbs).sum = rs.widthOf id := by
  rw [(h.limbs_spec hlimbs).1, sum_limbWidths h.width_pos]

include hsize

theorem Splits.splitValue_limbs (v : Nat) :
    pool.splitValue id v = some (Digits.cut (pool.registers.widths limbs) v) := by
  rw [splitValue_eq h (h.declares_of_limbs hlimbs) hsize, (h.limbs_spec hlimbs).1]

theorem Splits.joinValues_limbs {ds : List Nat}
    (hds : Digits.Fit (pool.registers.widths limbs) ds) :
    pool.joinValues id ds = some (Digits.join (pool.registers.widths limbs) ds) := by
  rw [(h.limbs_spec hlimbs).1] at hds ⊢
  exact joinValues_eq h (h.declares_of_limbs hlimbs) hsize hds.length_eq.symm

end Limbs

/-- **Values and limbs correspond**: in a pool after any requests, the limbs of a value fit and are
put together to its bits within the width of the register, and limbs that fit are put together to a
value that fits the register and has just these limbs. Only declared registers have values and
limbs. -/
theorem splitValue_inverse {requests : List Request} (hsize : rs.widthOf id < Word.modulus)
    (hpool : (ofRegisters rs width).after requests = pool) :
    (rs.declares id = false →
      (∀ v, pool.splitValue id v = none) ∧ ∀ ds, pool.joinValues id ds = none) ∧
    ∀ r, rs.find? id = some r → ∃ limbs, pool.limbs? id = some limbs ∧
      (∀ v, ∃ ds, pool.splitValue id v = some ds ∧
        Digits.Fit (pool.registers.widths limbs) ds ∧
          pool.joinValues id ds = some (v % 2 ^ r.width)) ∧
      ∀ ds, Digits.Fit (pool.registers.widths limbs) ds →
        ∃ v, pool.joinValues id ds = some v ∧ v < 2 ^ r.width ∧
          pool.splitValue id v = some ds := by
  have hs : pool.Splits rs := hpool ▸ after_splits rs width requests
  refine ⟨fun hid => ?_, fun r hr => ?_⟩
  · obtain ⟨e, he⟩ := hs.layout_of_not_declares hid
    simp [splitValue, joinValues, he]
  · have hdecl : rs.declares id = true := by simp [RegisterFile.declares, hr]
    have hwidth : rs.widthOf id = r.width := by simp [RegisterFile.widthOf, hr]
    obtain ⟨limbs, hlimbs⟩ := hs.limbs_of_declares hdecl
    have hsum := (hs.sum_widths_limbs hlimbs).trans hwidth
    refine ⟨limbs, hlimbs, fun v => ?_, fun ds hds => ?_⟩
    · have hfit := Digits.fit_cut (pool.registers.widths limbs) v
      refine ⟨_, hs.splitValue_limbs hlimbs hsize v, hfit, ?_⟩
      rw [hs.joinValues_limbs hlimbs hsize hfit, Digits.join_cut, hsum]
    · refine ⟨_, hs.joinValues_limbs hlimbs hsize hds, hsum ▸ Digits.join_lt hds, ?_⟩
      rw [hs.splitValue_limbs hlimbs hsize, Digits.cut_join hds]

theorem splitValue_inverse_crowded :
    (mixed.widthOf (.reg 0) < Word.modulus ∧ crowded.registers.widths [.reg 0, .reg 1, .reg 2] =
      [8, 8, 4]) ∧
    (∃ ds, crowded.splitValue (.reg 0) (2 ^ 24 + 70000) = some ds ∧
      crowded.joinValues (.reg 0) ds = some 70000) ∧
    (∃ v, crowded.joinValues (.reg 0) [112, 17, 1] = some v ∧ v < 2 ^ 20 ∧
      crowded.splitValue (.reg 0) v = some [112, 17, 1]) ∧
        crowded.splitValue (.reg 9) 1 = none := by
  have hsize : mixed.widthOf (.reg 0) < Word.modulus := by decide
  have hunknown : mixed.widthOf (.reg 9) < Word.modulus := by decide
  have hpool : (ofRegisters mixed 8).after _ = crowded := rfl
  obtain ⟨-, hvalues⟩ := splitValue_inverse hsize hpool
  obtain ⟨limbs, hlimbs, hsplit, hjoin⟩ := hvalues ⟨.input, "x", 20, 0⟩ rfl
  obtain rfl : [.reg 0, .reg 1, .reg 2] = limbs := by
    have hthree : crowded.limbs? (.reg 0) = some [.reg 0, .reg 1, .reg 2] := by decide
    exact Option.some.inj (hthree.symm.trans hlimbs)
  have hwidths : crowded.registers.widths [.reg 0, .reg 1, .reg 2] = [8, 8, 4] := by decide
  have hfit : Digits.Fit (crowded.registers.widths [.reg 0, .reg 1, .reg 2]) [112, 17, 1] := by
    rw [hwidths]
    exact .cons (by decide) (.cons (by decide) (.cons (by decide) .nil))
  obtain ⟨ds, hds, -, hvalue⟩ := hsplit (2 ^ 24 + 70000)
  have hnone := (splitValue_inverse hunknown hpool).1 (by decide)
  exact ⟨⟨hsize, hwidths⟩, ⟨ds, hds, hvalue⟩, hjoin _ hfit, hnone.1 1⟩

end Pool

end LimbMachine
