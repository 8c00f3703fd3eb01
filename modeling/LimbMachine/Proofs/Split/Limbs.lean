import LimbMachine.Proofs.Exec.Storage
import LimbMachine.Split.Pool
import Mathlib.Data.List.Nodup
import Mathlib.Data.List.Flatten

/-!
# Limbs of registers

The limbs of a register are as wide as its width and the limb width say (`limbWidths`), and together
as wide as the register. A pool that `Splits` a register file keeps this while registers are
allocated: pools only grow at the end (`Pool.Extends`), so the limbs of a register, their widths and
their layout never change. Limbs of different registers are different.
-/

namespace LimbMachine

/-- The widths of the limbs of a register of `total` bits. -/
def limbWidths (width total : Nat) : List Nat :=
  (List.range (if total ≤ width then 1 else (total + width - 1) / width)).map fun i =>
    min width (total - i * width)

section Widths

variable {width total : Nat}

theorem limbWidths_of_le (h : total ≤ width) : limbWidths width total = [total] := by
  simp [limbWidths, h]

theorem sum_map_min (width total n : Nat) :
    ((List.range n).map fun i => min width (total - i * width)).sum = min (n * width) total := by
  induction n with
  | zero => simp
  | succ n ih =>
    rw [List.range_succ, List.map_append, List.sum_append, ih, Nat.succ_mul]
    simp only [List.map_cons, List.map_nil, List.sum_cons, List.sum_nil]
    omega

/-- The limbs of a register are together as wide as the register. -/
theorem sum_limbWidths (hw : 0 < width) : (limbWidths width total).sum = total := by
  by_cases h : total ≤ width
  · simp [limbWidths_of_le h]
  · rw [limbWidths, if_neg h, sum_map_min]
    have hdiv := Nat.div_add_mod (total + width - 1) width
    have hmod := Nat.mod_lt (total + width - 1) hw
    rw [Nat.mul_comm] at hdiv
    omega

/-- Only a register without bits has a limb without bits. -/
theorem limbWidths_pos (hw : 0 < width) (ht : 0 < total) :
    ∀ w ∈ limbWidths width total, 0 < w := by
  intro w hmem
  by_cases h : total ≤ width
  · rw [limbWidths_of_le h] at hmem
    rw [List.mem_singleton.1 hmem]
    exact ht
  · simp only [limbWidths, if_neg h, List.mem_map, List.mem_range] at hmem
    obtain ⟨i, hi, rfl⟩ := hmem
    have hdiv := Nat.div_mul_le_self (total + width - 1) width
    have hmul : (i + 1) * width ≤ (total + width - 1) / width * width := Nat.mul_le_mul_right _ hi
    rw [Nat.succ_mul] at hmul
    omega

theorem limbWidths_le : ∀ w ∈ limbWidths width total, w ≤ width := by
  intro w hmem
  obtain ⟨i, -, rfl⟩ := List.mem_map.1 hmem
  exact Nat.min_le_left _ _

theorem limbWidths_ne_nil (hw : 0 < width) : limbWidths width total ≠ [] := by
  intro h
  have hsum : (limbWidths width total).sum = total := sum_limbWidths hw
  rw [h, List.sum_nil] at hsum
  rw [← hsum, limbWidths_of_le (Nat.zero_le _)] at h
  cases h

theorem Register.map_width_limbs (r : Register) (width : Nat) :
    (r.limbs width).map Register.width = limbWidths width r.width := by
  simp only [limbs, limbWidths, limbCount, List.map_map]
  rfl

theorem Register.limbs_ne_nil {r : Register} (hw : 0 < width) : r.limbs width ≠ [] := by
  intro hnil
  have hwidths := r.map_width_limbs width
  rw [hnil] at hwidths
  exact limbWidths_ne_nil hw hwidths.symm

theorem Register.kind_of_mem_limbs {r limb : Register} (h : limb ∈ r.limbs width) :
    limb.kind = r.kind := by
  obtain ⟨i, -, rfl⟩ := List.mem_map.1 h
  rfl

end Widths

/-! ## Numbering -/

namespace Pool

theorem flatten_number (start : Nat) (groups : List (List Register)) :
    (number start groups).flatten = (List.range' start groups.flatten.length).map RegId.reg := by
  induction groups generalizing start with
  | nil => rfl
  | cons group rest ih =>
    rw [number, List.flatten_cons, ih, List.flatten_cons, List.length_append, ← List.map_append,
      List.range'_append_1]

theorem number_getElem? (start i : Nat) (groups : List (List Register)) :
    (number start groups)[i]? = (groups[i]?).map fun group =>
      (List.range' (start + (groups.take i).flatten.length) group.length).map RegId.reg := by
  induction groups generalizing start i with
  | nil => rfl
  | cons group rest ih =>
    cases i with
    | zero => simp [number]
    | succ i =>
      rw [number, List.getElem?_cons_succ, ih, List.getElem?_cons_succ, List.take_succ_cons,
        List.flatten_cons, List.length_append, Nat.add_assoc]

theorem flatten_getElem? {groups : List (List Register)} {group : List Register} {i k : Nat}
    (h : groups[i]? = some group) (hk : k < group.length) :
    groups.flatten[(groups.take i).flatten.length + k]? = group[k]? := by
  induction groups generalizing i with
  | nil => cases h
  | cons first rest ih =>
    cases i with
    | zero =>
      cases h
      rw [List.take_zero, List.flatten_nil, List.length_nil, Nat.zero_add, List.flatten_cons,
        List.getElem?_append_left hk]
    | succ i =>
      rw [List.take_succ_cons, List.flatten_cons, List.flatten_cons, List.length_append,
        Nat.add_assoc, List.getElem?_append_right (by omega), Nat.add_sub_cancel_left]
      exact ih h

/-! ## Growing pools -/

/-- `later` is the pool after more registers were allocated, all of which start out empty. -/
structure Extends (pool later : Pool) : Prop where
  width_eq : later.width = pool.width
  limbs_eq : later.limbs = pool.limbs
  base_eq : later.base = pool.base
  grown : ∃ extra, later.registers = pool.registers ++ extra ∧
    ∀ r ∈ extra, r.kind = .temp ∧ r.pad = 0

theorem Extends.refl (pool : Pool) : pool.Extends pool :=
  ⟨rfl, rfl, rfl, [], (List.append_nil _).symm, by simp⟩

theorem Extends.trans {p q r : Pool} (h : p.Extends q) (h' : q.Extends r) : p.Extends r := by
  refine ⟨h'.width_eq.trans h.width_eq, h'.limbs_eq.trans h.limbs_eq,
    h'.base_eq.trans h.base_eq, ?_⟩
  obtain ⟨extra, heq, hextra⟩ := h.grown
  obtain ⟨extra', heq', hextra'⟩ := h'.grown
  refine ⟨extra ++ extra', by rw [heq', heq, List.append_assoc], fun r hr => ?_⟩
  exact (List.mem_append.1 hr).elim (hextra r) (hextra' r)

theorem Extends.registers {pool later : Pool} (h : pool.Extends later) :
    pool.registers <+: later.registers := by
  obtain ⟨extra, heq, -⟩ := h.grown
  exact ⟨extra, heq.symm⟩

end Pool

namespace RegisterFile

variable {rs later : RegisterFile} {id : RegId}

theorem find?_mono (h : rs <+: later) (hid : rs.declares id = true) :
    later.find? id = rs.find? id := by
  obtain ⟨i, r, rfl, hr⟩ := declares_iff.1 hid
  obtain ⟨hi, rfl⟩ := List.getElem?_eq_some_iff.1 hr
  rw [find?, find?, hr]
  exact List.prefix_iff_getElem?.1 h i hi

theorem declares_mono (h : rs <+: later) (hid : rs.declares id = true) :
    later.declares id = true := by
  rw [declares, find?_mono h hid]
  exact hid

theorem not_declares_mono (h : rs <+: later) (hid : later.declares id = false) :
    rs.declares id = false := by
  by_contra hdecl
  rw [declares_mono h (Bool.not_eq_false _ ▸ hdecl)] at hid
  cases hid

theorem widthOf_mono (h : rs <+: later) (hid : rs.declares id = true) :
    later.widthOf id = rs.widthOf id := by
  rw [widthOf, widthOf, find?_mono h hid]

theorem widths_mono (h : rs <+: later) {ids : List RegId}
    (hids : ∀ id ∈ ids, rs.declares id = true) : later.widths ids = rs.widths ids :=
  List.map_congr_left fun id hid => widthOf_mono h (hids id hid)

/-- The id is left out or has a register. -/
def Knows (rs : RegisterFile) (id : RegId) : Prop := id.isUsed = true → rs.declares id = true

theorem Knows.of_declares (h : rs.declares id = true) : rs.Knows id := fun _ => h

theorem Knows.mono (h : rs <+: later) (hid : rs.Knows id) : later.Knows id :=
  fun hu => declares_mono h (hid hu)

theorem Knows.widthOf_eq (h : rs <+: later) (hid : rs.Knows id) :
    later.widthOf id = rs.widthOf id := by
  cases id with
  | unused => rfl
  | reg i => exact widthOf_mono h (hid rfl)

theorem Knows.maxOf_eq (h : rs <+: later) (hid : rs.Knows id) : later.maxOf id = rs.maxOf id := by
  rw [RegisterFile.maxOf_eq, RegisterFile.maxOf_eq, hid.widthOf_eq h]

end RegisterFile

namespace Pool

/-! ## Allocation -/

/-- What allocating a register gives: an id of the width asked for that no register had before. -/
structure Allocated (pool : Pool) (width : Nat) (id : RegId) (later : Pool) : Prop where
  grows : pool.Extends later
  widthOf_eq : later.registers.widthOf id = width
  used_iff : id.isUsed = true ↔ 0 < width
  known : later.registers.Knows id
  fresh : pool.registers.declares id = false

theorem allocate_ok {label : String} {width : Nat} {pool later : Pool} {id : RegId}
    (h : allocate label width pool = .ok id later) : pool.Allocated width id later := by
  unfold allocate at h
  split at h
  · rename_i hzero
    cases h
    exact ⟨.refl pool, hzero.symm, by simp [RegId.isUsed, hzero], fun hu => (nomatch hu), rfl⟩
  · rename_i hpos
    cases h
    have hnew : ∀ r : Register, (pool.registers ++ [r])[pool.registers.length]? = some r := by
      simp
    refine ⟨⟨rfl, rfl, rfl, _, rfl, by simp⟩, RegisterFile.widthOf_reg (hnew _), ?_, ?_, ?_⟩
    · simp [RegId.isUsed]
      omega
    · exact fun _ => RegisterFile.declares_reg.2 (by simp)
    · simp [RegisterFile.declares, RegisterFile.find?]

theorem asking_ok {α : Type} {question : Pool → Except SplitError α}
    {pool later : Pool} {a : α} :
    asking question pool = .ok a later ↔ question pool = .ok a ∧ pool = later := by
  unfold asking
  cases question pool with
  | error e => simp
  | ok b => simp

/-! ## The limbs of a pool -/

/-- The pool holds the limbs of a register file, cut at its own limb width. -/
def Splits (pool : Pool) (rs : RegisterFile) : Prop :=
  ∃ width, (ofRegisters rs width).Extends pool

variable {pool later : Pool} {rs : RegisterFile} {id id' : RegId} {ids ids' : List RegId}

theorem splits_ofRegisters (rs : RegisterFile) (width : Nat) : (ofRegisters rs width).Splits rs :=
  ⟨width, .refl _⟩

theorem Splits.mono (h : pool.Splits rs) (hext : pool.Extends later) : later.Splits rs := by
  obtain ⟨width, hbase⟩ := h
  exact ⟨width, hbase.trans hext⟩

theorem Splits.width_pos (h : pool.Splits rs) : 0 < pool.width := by
  obtain ⟨width, hext⟩ := h
  rw [hext.width_eq]
  exact Nat.lt_of_lt_of_le Nat.one_pos (Nat.le_max_right width 1)

theorem Splits.limbs_eq (h : pool.Splits rs) :
    pool.limbs = number 0 (rs.map (Register.limbs pool.width)) := by
  obtain ⟨width, hext⟩ := h
  rw [hext.limbs_eq, hext.width_eq]
  rfl

theorem Splits.limbs_first (h : pool.Splits rs) :
    (rs.map (Register.limbs pool.width)).flatten <+: pool.registers := by
  obtain ⟨width, hext⟩ := h
  rw [hext.width_eq]
  exact hext.registers

theorem limbs?_eq_some_iff :
    pool.limbs? id = some ids ↔ ∃ i, id = .reg i ∧ pool.limbs[i]? = some ids := by
  cases id with
  | unused => simp [limbs?]
  | reg i => simp [limbs?]

/-- Exactly the declared registers have limbs. -/
theorem Splits.limbs?_isSome (h : pool.Splits rs) : (pool.limbs? id).isSome = rs.declares id := by
  cases id with
  | unused => rfl
  | reg i =>
    rw [limbs?, h.limbs_eq, number_getElem?, Option.isSome_map, List.getElem?_map,
      Option.isSome_map]
    rfl

theorem Splits.limbs_of_declares (h : pool.Splits rs) (hid : rs.declares id = true) :
    ∃ limbs, pool.limbs? id = some limbs := by
  rw [← h.limbs?_isSome] at hid
  exact Option.isSome_iff_exists.1 hid

/-- The limbs of a register are the registers of the pool that it was cut into. -/
theorem Splits.find?_limbs (h : pool.Splits rs) (hid : pool.limbs? id = some ids) :
    ∃ r, rs.find? id = some r ∧
      ids.map pool.registers.find? = (r.limbs pool.width).map some := by
  obtain ⟨i, rfl, hi⟩ := limbs?_eq_some_iff.1 hid
  rw [h.limbs_eq, number_getElem?, Option.map_eq_some_iff] at hi
  obtain ⟨group, hgroup, rfl⟩ := hi
  have hr := hgroup
  rw [List.getElem?_map, Option.map_eq_some_iff] at hr
  obtain ⟨r, hr, rfl⟩ := hr
  refine ⟨r, hr, List.ext_getElem (by simp) fun k h₁ h₂ => ?_⟩
  -- the `k`-th limb is the register at the `k`-th place after the limbs of earlier registers
  have hk : k < (r.limbs pool.width).length := by simpa using h₂
  have hflat := (flatten_getElem? hgroup hk).trans (List.getElem?_eq_getElem hk)
  obtain ⟨hlt, hget⟩ := List.getElem?_eq_some_iff.1 hflat
  have hlimb := List.prefix_iff_getElem?.1 h.limbs_first _ hlt
  rw [hget] at hlimb
  simp only [List.getElem_map, List.getElem_range', Nat.one_mul, Nat.zero_add]
  exact hlimb

/-- The limbs of a register are registers of the pool, as wide as limbs of that register are. -/
theorem Splits.limbs_spec (h : pool.Splits rs) (hid : pool.limbs? id = some ids) :
    pool.registers.widths ids = limbWidths pool.width (rs.widthOf id) ∧
      ∀ limb ∈ ids, pool.registers.declares limb = true := by
  obtain ⟨r, hr, hfind⟩ := h.find?_limbs hid
  constructor
  · have hwidths := congrArg (List.map fun r => (r.map Register.width).getD 0) hfind
    rw [List.map_map, List.map_map] at hwidths
    rw [RegisterFile.widthOf, hr, Option.map_some, Option.getD_some, ← Register.map_width_limbs]
    exact hwidths
  · intro limb hmem
    have hmem' := List.mem_map_of_mem (f := pool.registers.find?) hmem
    rw [hfind] at hmem'
    obtain ⟨r', -, hr'⟩ := List.mem_map.1 hmem'
    rw [RegisterFile.declares, ← hr']
    rfl

/-- The limbs of an input are inputs. -/
theorem Splits.isInput_limbs (h : pool.Splits rs) (hid : pool.limbs? id = some ids) :
    ∀ limb ∈ ids, pool.registers.isInput limb = rs.isInput id := by
  obtain ⟨r, hr, hfind⟩ := h.find?_limbs hid
  intro limb hmem
  have hmem' := List.mem_map_of_mem (f := pool.registers.find?) hmem
  rw [hfind] at hmem'
  obtain ⟨r', hr', hlimb⟩ := List.mem_map.1 hmem'
  rw [RegisterFile.isInput, RegisterFile.isInput, hr, ← hlimb, Option.any_some, Option.any_some,
    Register.isInput, Register.isInput, Register.kind_of_mem_limbs hr']

theorem Splits.nodup_flatten_limbs (h : pool.Splits rs) : pool.limbs.flatten.Nodup := by
  rw [h.limbs_eq, flatten_number]
  exact (List.nodup_range' ..).map fun a b hab => by simpa using hab

theorem Splits.nodup_limbs (h : pool.Splits rs) (hid : pool.limbs? id = some ids) : ids.Nodup := by
  obtain ⟨i, -, hi⟩ := limbs?_eq_some_iff.1 hid
  exact (List.nodup_flatten.1 h.nodup_flatten_limbs).1 ids (List.mem_of_getElem? hi)

/-- Different registers have different limbs. -/
theorem Splits.disjoint_limbs (h : pool.Splits rs) (hid : pool.limbs? id = some ids)
    (hid' : pool.limbs? id' = some ids') (hne : id ≠ id') : ids.Disjoint ids' := by
  obtain ⟨i, rfl, hi⟩ := limbs?_eq_some_iff.1 hid
  obtain ⟨j, rfl, hj⟩ := limbs?_eq_some_iff.1 hid'
  have hpair := List.pairwise_iff_getElem.1 (List.nodup_flatten.1 h.nodup_flatten_limbs).2
  obtain ⟨hi', rfl⟩ := List.getElem?_eq_some_iff.1 hi
  obtain ⟨hj', rfl⟩ := List.getElem?_eq_some_iff.1 hj
  rcases Nat.lt_or_gt_of_ne (show i ≠ j by rintro rfl; exact hne rfl) with hlt | hlt
  · exact hpair i j hi' hj' hlt
  · exact fun limb hlimb hlimb' => hpair j i hj' hi' hlt hlimb' hlimb

theorem Extends.limbs?_eq (h : pool.Extends later) (id : RegId) :
    later.limbs? id = pool.limbs? id := by
  cases id with
  | unused => rfl
  | reg i => rw [limbs?, limbs?, h.limbs_eq]

theorem tryLimbs_ok_iff : pool.tryLimbs id = .ok ids ↔ pool.limbs? id = some ids := by
  unfold tryLimbs
  cases pool.limbs? id with
  | none => simp
  | some limbs => simp

end Pool

end LimbMachine
