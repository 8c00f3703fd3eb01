import LimbMachine.Proofs.Arith.Digits
import LimbMachine.Proofs.Exec.Slices
import LimbMachine.Proofs.Success

/-!
# What storing does

A state in which every value is below `2 ^ width` `Fits`. Storing changes a state in one way only:
some ids take given values and nothing else changes. `State.Assigned` says so once, and every
microcode that stores is later described by it.

* `storeAcross_eq`: whether a number can be spread depends on the total width of its targets alone.
* `storeAcross_assigned`: whether or not it is accepted, a number leaves the digits of its residue
  in its targets.
* `Assigned.packed_eq`: targets that took the digits of a number hold that number.
-/

namespace LimbMachine

namespace RegisterFile

/-- The widths behind a list of ids. -/
def widths (rs : RegisterFile) (ids : List RegId) : List Nat := ids.map rs.widthOf

@[simp] theorem widths_nil (rs : RegisterFile) : rs.widths [] = [] := rfl

@[simp] theorem widths_cons (rs : RegisterFile) (id : RegId) (ids : List RegId) :
    rs.widths (id :: ids) = rs.widthOf id :: rs.widths ids := rfl

@[simp] theorem widths_append (rs : RegisterFile) (ids ids' : List RegId) :
    rs.widths (ids ++ ids') = rs.widths ids ++ rs.widths ids' := List.map_append

@[simp] theorem length_widths (rs : RegisterFile) (ids : List RegId) :
    (rs.widths ids).length = ids.length := List.length_map _

@[simp] theorem widthOf_unused (rs : RegisterFile) : rs.widthOf .unused = 0 := rfl

theorem widthOf_reg {rs : RegisterFile} {i : Nat} {r : Register} (h : rs[i]? = some r) :
    rs.widthOf (.reg i) = r.width := by
  simp [widthOf, find?, h]

theorem declares_reg {rs : RegisterFile} {i : Nat} :
    rs.declares (.reg i) = true ↔ i < rs.length := by
  simp [declares, find?]

theorem declares_iff {rs : RegisterFile} {id : RegId} :
    rs.declares id = true ↔ ∃ i r, id = .reg i ∧ rs[i]? = some r := by
  cases id with
  | unused => simp [declares, find?]
  | reg i => simp [declares, find?, Option.isSome_iff_exists]

theorem isUsed_of_declares {rs : RegisterFile} {id : RegId} (h : rs.declares id = true) :
    id.isUsed = true := by
  cases id with
  | unused => cases h
  | reg i => rfl

theorem widthOf_of_not_declares {rs : RegisterFile} {id : RegId} (h : rs.declares id = false) :
    rs.widthOf id = 0 := by
  unfold declares at h
  unfold widthOf
  cases hf : rs.find? id with
  | none => rfl
  | some r => rw [hf] at h; cases h

theorem widthOf_lt {rs : RegisterFile} (h : ∀ r ∈ rs, r.width < Word.modulus) (id : RegId) :
    rs.widthOf id < Word.modulus := by
  cases hdecl : rs.declares id with
  | false =>
    rw [widthOf_of_not_declares hdecl]
    exact Word.modulus_pos
  | true =>
    obtain ⟨i, r, rfl, hr⟩ := declares_iff.1 hdecl
    rw [widthOf_reg hr]
    exact h r (List.mem_of_getElem? hr)

/-- The largest value behind an id is one below `2 ^ width`, also where there is no register. -/
theorem maxOf_eq (rs : RegisterFile) (id : RegId) : rs.maxOf id = 2 ^ rs.widthOf id - 1 := by
  unfold maxOf widthOf
  cases rs.find? id <;> rfl

theorem totalWidth_eq {rs : RegisterFile} {ids : List RegId}
    (h : (rs.widths ids).sum < Word.modulus) : rs.totalWidth ids = (rs.widths ids).sum :=
  Word.sum_eq h

/-- The error for a number that is too large for its targets. -/
def tooWide (rs : RegisterFile) (ids : List RegId) (n : Nat) : RunError :=
  .widthViolation (", ".intercalate (ids.reverse.map rs.nameOf)) (rs.totalWidth ids) n

end RegisterFile

namespace State

variable {s s₁ s₂ : State} {id : RegId} {ids ids' : List RegId} {vs vs' : List Nat}

/-- One value for each register, and each below `2 ^ width`. An id without a register reads as
zero and has no width, so the bound holds of every id. -/
structure Fits (s : State) : Prop where
  length_eq : s.values.length = s.registers.length
  load_lt : ∀ id, s.load id < 2 ^ s.registers.widthOf id

/-- `s₁` is `s` with the used ids among `ids` set to the values `vs`. -/
structure Assigned (s : State) (ids : List RegId) (vs : List Nat) (s₁ : State) : Prop where
  registers_eq : s₁.registers = s.registers
  pc_eq : s₁.pc = s.pc
  length_eq : s₁.values.length = s.values.length
  taken : List.Forall₂ (fun (id : RegId) v => id.isUsed = true → s₁.load id = v) ids vs
  frame : ∀ id, id ∉ ids → s₁.load id = s.load id

/-- A value that may be stored: there is a register for it, unless the target is left out. -/
def Takes (rs : RegisterFile) (id : RegId) (v : Nat) : Prop :=
  id.isUsed = true → rs.declares id = true ∧ v < 2 ^ rs.widthOf id

@[simp] theorem load_unused (s : State) : s.load .unused = 0 := rfl

theorem Fits.load_le_maxOf (h : s.Fits) (id : RegId) : s.load id ≤ s.registers.maxOf id := by
  rw [RegisterFile.maxOf_eq]
  have := h.load_lt id
  omega

theorem Fits.fit (h : s.Fits) (ids : List RegId) :
    Digits.Fit (s.registers.widths ids) (ids.map s.load) := by
  induction ids with
  | nil => exact .nil
  | cons id ids ih => exact .cons (h.load_lt id) ih

/-- A value for each register is enough: what has no register reads as zero. -/
theorem Fits.of_values (hlen : s.values.length = s.registers.length)
    (h : ∀ (i v : Nat) (r : Register), s.values[i]? = some v → s.registers[i]? = some r →
      v < 2 ^ r.width) : s.Fits := by
  refine ⟨hlen, fun id => ?_⟩
  cases id with
  | unused => simp
  | reg i =>
    cases hv : s.values[i]? with
    | none => simp [load, hv]
    | some v =>
      obtain ⟨hi, -⟩ := List.getElem?_eq_some_iff.1 hv
      have hr := List.getElem?_eq_getElem (hlen ▸ hi)
      rw [RegisterFile.widthOf_reg hr]
      simpa [load, hv] using h i v _ hv hr

theorem Fits.of_zip (hlen : s.values.length = s.registers.length)
    (h : ∀ pair ∈ s.values.zip s.registers, pair.1 < 2 ^ pair.2.width) : s.Fits :=
  .of_values hlen fun _ v r hv hr =>
    h (v, r) (List.mem_of_getElem? (List.getElem?_zip_eq_some.2 ⟨hv, hr⟩))

/-! ## Assignments -/

namespace Assigned

theorem refl (s : State) : s.Assigned [] [] s := ⟨rfl, rfl, rfl, .nil, fun _ _ => rfl⟩

/-- Assignments to different ids add up; left-out ids may occur on both sides. -/
theorem append (h₁ : s.Assigned ids vs s₁) (h₂ : s₁.Assigned ids' vs' s₂)
    (hdis : ∀ id ∈ ids, id.isUsed = true → id ∉ ids') :
    s.Assigned (ids ++ ids') (vs ++ vs') s₂ := by
  refine ⟨h₂.registers_eq.trans h₁.registers_eq, h₂.pc_eq.trans h₁.pc_eq,
    h₂.length_eq.trans h₁.length_eq, ?_, fun id hid => ?_⟩
  · refine List.rel_append ?_ h₂.taken
    refine (List.forall₂_iff_zip.2 ⟨h₁.taken.length_eq, fun {id v} hz => ?_⟩)
    intro hu
    rw [h₂.frame id (hdis id (List.of_mem_zip hz).1 hu)]
    exact (List.forall₂_iff_zip.1 h₁.taken).2 hz hu
  · rw [List.mem_append, not_or] at hid
    rw [h₂.frame id hid.2, h₁.frame id hid.1]

/-- What was assigned fits if every value does. -/
theorem fits (h : s.Assigned ids vs s₁) (hs : s.Fits)
    (htake : List.Forall₂ (Takes s.registers) ids vs) : s₁.Fits := by
  refine ⟨by rw [h.length_eq, h.registers_eq, hs.length_eq], fun id => ?_⟩
  by_cases hid : id ∈ ids
  · obtain ⟨i, hi, rfl⟩ := List.getElem_of_mem hid
    cases hused : ids[i].isUsed with
    | false =>
      have : ids[i] = .unused := by
        cases he : ids[i] with
        | unused => rfl
        | reg j => rw [he] at hused; cases hused
      simp [this]
    | true =>
      have hv : i < vs.length := h.taken.length_eq ▸ hi
      have hload := (List.forall₂_iff_get.1 h.taken).2 i hi hv
      have htk := (List.forall₂_iff_get.1 htake).2 i hi hv
      simp only [List.get_eq_getElem] at hload htk
      rw [hload hused, h.registers_eq]
      exact (htk hused).2
  · rw [h.frame id hid, h.registers_eq]
    exact hs.load_lt id

/-- After an assignment of digits the targets hold exactly these digits: a left-out target has no
width, so its digit is zero. -/
theorem map_load {n : Nat} (h : s.Assigned ids (Digits.cut (s.registers.widths ids) n) s₁) :
    ids.map s₁.load = Digits.cut (s.registers.widths ids) n := by
  have htaken := h.taken
  clear h
  induction ids generalizing n with
  | nil => rfl
  | cons id ids ih =>
    rw [RegisterFile.widths_cons, Digits.cut_cons] at htaken ⊢
    cases htaken with
    | cons hid hrest =>
      rw [List.map_cons, ih hrest]
      cases id with
      | unused => simp [Nat.mod_one]
      | reg i => rw [hid rfl]

end Assigned

/-- The number packed into ids side by side. -/
def packed (s : State) (ids : List RegId) : Nat :=
  Digits.join (s.registers.widths ids) (ids.map s.load)

theorem packed_nil (s : State) : s.packed [] = 0 := rfl

theorem packed_cons (s : State) (id : RegId) (ids : List RegId) :
    s.packed (id :: ids) = s.load id + 2 ^ s.registers.widthOf id * s.packed ids := rfl

theorem packed_singleton (s : State) (id : RegId) : s.packed [id] = s.load id := by
  simp [packed]

theorem packed_append (s : State) (ids ids' : List RegId) :
    s.packed (ids ++ ids') = s.packed ids + 2 ^ (s.registers.widths ids).sum * s.packed ids' := by
  unfold packed
  rw [RegisterFile.widths_append, List.map_append, Digits.join_append (by simp)]

theorem Fits.packed_lt (h : s.Fits) (ids : List RegId) :
    s.packed ids < 2 ^ (s.registers.widths ids).sum := Digits.join_lt (h.fit ids)

/-- Packing at growing offsets is packing digit by digit, as long as the offsets are exact. -/
theorem packFrom_eq (s : State) (ids : List RegId) (offset : Nat)
    (h : offset + (s.registers.widths ids).sum < Word.modulus) :
    s.packFrom offset ids = 2 ^ offset * s.packed ids := by
  induction ids generalizing offset with
  | nil => simp [packFrom, packed_nil]
  | cons id ids ih =>
    rw [RegisterFile.widths_cons, List.sum_cons] at h
    rw [packFrom, Word.add_eq (by omega), ih _ (by omega), packed_cons, Nat.shiftLeft_eq,
      Nat.pow_add]
    ring

theorem pack_eq (s : State) {ids : List RegId} (h : (s.registers.widths ids).sum < Word.modulus) :
    s.pack ids = s.packed ids := by
  unfold pack
  rw [packFrom_eq s ids 0 (by omega), Nat.pow_zero, Nat.one_mul]

/-- Targets that took the digits of a number hold that number. -/
theorem Assigned.packed_eq {n : Nat}
    (h : s.Assigned ids (Digits.cut (s.registers.widths ids) n) s₁)
    (hn : n < 2 ^ (s.registers.widths ids).sum) : s₁.packed ids = n := by
  unfold packed
  rw [h.map_load, h.registers_eq, Digits.join_cut_of_lt hn]

/-! ## Storing -/

theorem load_write {i v : Nat} (hi : i < s.values.length) :
    (s.write i v).load id = if id = .reg i then v else s.load id := by
  cases id with
  | unused => simp
  | reg j =>
    simp only [write, load, List.getElem?_set, RegId.reg.injEq]
    by_cases h : i = j
    · simp [h, h ▸ hi]
    · simp [h, Ne.symm h]

/-- A value that may be stored is stored. -/
theorem store_ok (hs : s.values.length = s.registers.length) {v : Nat}
    (h : Takes s.registers id v) :
    ∃ s₁, store id v s = .ok () s₁ ∧ s.Assigned [id] [v] s₁ := by
  cases id with
  | unused =>
    refine ⟨s, rfl, rfl, rfl, rfl, ?_, fun _ _ => rfl⟩
    exact .cons (fun hu => absurd hu (by decide)) .nil
  | reg i =>
    obtain ⟨hdecl, hlt⟩ := h rfl
    have hi : i < s.registers.length := RegisterFile.declares_reg.1 hdecl
    have hr := List.getElem?_eq_getElem hi
    rw [RegisterFile.widthOf_reg hr] at hlt
    have hload : ∀ id', (s.write i v).load id' = if id' = .reg i then v else s.load id' :=
      fun id' => load_write (hs ▸ hi)
    refine ⟨s.write i v, ?_, rfl, rfl, by simp [write], ?_, fun id' hid => ?_⟩
    · simp only [store, hr, (Register.fits_iff _ v).2 hlt, if_true]
    · exact .cons (fun _ => by rw [hload, if_pos rfl]) .nil
    · rw [hload, if_neg (by simpa using hid)]

/-- One value for each target. -/
theorem storeEach_ok (hs : s.values.length = s.registers.length)
    (hnd : (ids.filter RegId.isUsed).Nodup)
    (h : List.Forall₂ (Takes s.registers) ids vs) :
    ∃ s₁, storeEach (ids.zip vs) s = .ok () s₁ ∧ s.Assigned ids vs s₁ := by
  induction ids generalizing s vs with
  | nil => cases h; exact ⟨s, rfl, .refl s⟩
  | cons id ids ih =>
    cases h with
    | @cons _ v _ vs hid hrest =>
    have hrest_nd : (ids.filter RegId.isUsed).Nodup :=
      List.Nodup.sublist ((List.sublist_cons_self id ids).filter _) hnd
    have hnot : id.isUsed = true → id ∉ ids := fun hu hmem => by
      rw [List.filter_cons, if_pos hu, List.nodup_cons] at hnd
      exact hnd.1 (List.mem_filter.2 ⟨hmem, hu⟩)
    obtain ⟨s₁, hstore, h₁⟩ := store_ok hs hid
    obtain ⟨s₂, heach, h₂⟩ := ih (by rw [h₁.length_eq, h₁.registers_eq, hs]) hrest_nd
      (by rwa [h₁.registers_eq])
    refine ⟨s₂, ?_, h₁.append h₂ (by simpa using hnot)⟩
    rw [List.zip_cons_cons, storeEach, estate_bind_of_ok hstore, heach]

/-- Slices of any number are stored as the digits of its residue, and the bit that is reached is
the total width. -/
theorem storeSlices_ok (v : Int) (hs : s.values.length = s.registers.length) (hnd : ids.Nodup)
    (hdecl : ∀ id ∈ ids, id.isUsed = true → s.registers.declares id = true) (offset k : Nat)
    (hsize : offset + (s.registers.widths ids).sum < Word.modulus)
    (hk : offset + (s.registers.widths ids).sum ≤ k) :
    ∃ s₁, storeSlices (decide (v < 0)) (spreadSource v) offset ids s =
        .ok (offset + (s.registers.widths ids).sum) s₁ ∧
      s.Assigned ids (Digits.cut (s.registers.widths ids) ((v % 2 ^ k).toNat / 2 ^ offset))
        s₁ := by
  induction ids generalizing s offset with
  | nil => exact ⟨s, rfl, .refl s⟩
  | cons id ids ih =>
    rw [List.nodup_cons] at hnd
    rw [RegisterFile.widths_cons, List.sum_cons] at hsize hk
    -- the slice is the lowest digit of what is left of the residue
    have hslice : extendedSlice (decide (v < 0)) (spreadSource v) offset (s.registers.widthOf id) =
        (v % 2 ^ k).toNat / 2 ^ offset % 2 ^ s.registers.widthOf id :=
      extendedSlice_residue v (by omega) (by omega)
    have htake : Takes s.registers id
        (extendedSlice (decide (v < 0)) (spreadSource v) offset (s.registers.widthOf id)) :=
      fun hu => ⟨hdecl id List.mem_cons_self hu, by
        rw [hslice]; exact Nat.mod_lt _ (Nat.two_pow_pos _)⟩
    obtain ⟨s₁, hstore, h₁⟩ := store_ok hs htake
    have hregs := h₁.registers_eq
    obtain ⟨s₂, hslices, h₂⟩ := ih (s := s₁) (by rw [h₁.length_eq, hregs, hs]) hnd.2
      (fun id' hid' => by rw [hregs]; exact hdecl id' (List.mem_cons_of_mem _ hid'))
      (offset + s.registers.widthOf id) (by rw [hregs]; omega) (by rw [hregs]; omega)
    rw [hregs] at hslices h₂
    refine ⟨s₂, ?_, ?_⟩
    · rw [storeSlices, estate_get_bind, estate_bind_of_ok hstore,
        Word.add_eq (by omega), hslices, RegisterFile.widths_cons, List.sum_cons, Nat.add_assoc]
    · rw [RegisterFile.widths_cons, Digits.cut_cons, ← hslice, Nat.div_div_eq_div_mul,
        ← Nat.pow_add]
      exact h₁.append h₂ (by simpa using fun _ => hnd.1)

/-- Slices of any number can be stored in declared targets, whatever their total width is. -/
theorem storeSlices_total (negative : Bool) (source : Nat)
    (hs : s.values.length = s.registers.length)
    (hdecl : ∀ id ∈ ids, id.isUsed = true → s.registers.declares id = true) {offset : Nat}
    (hoffset : offset < Word.modulus) :
    ∃ s₁, storeSlices negative source offset ids s =
        .ok ((offset + (s.registers.widths ids).sum) % Word.modulus) s₁ ∧
      s₁.registers = s.registers ∧ s₁.values.length = s.values.length := by
  induction ids generalizing s offset with
  | nil =>
    refine ⟨s, ?_, rfl, rfl⟩
    rw [RegisterFile.widths_nil, List.sum_nil, Nat.add_zero, Nat.mod_eq_of_lt hoffset]
    rfl
  | cons id ids ih =>
    have htake : Takes s.registers id
        (extendedSlice negative source offset (s.registers.widthOf id)) :=
      fun hu => ⟨hdecl id List.mem_cons_self hu, extendedSlice_lt ..⟩
    obtain ⟨s₁, hstore, h₁⟩ := store_ok hs htake
    have hregs := h₁.registers_eq
    obtain ⟨s₂, hslices, hregs₂, hlen₂⟩ :=
      ih (s := s₁) (by rw [h₁.length_eq, hregs, hs])
      (fun id' hid' => by rw [hregs]; exact hdecl id' (List.mem_cons_of_mem _ hid'))
      (Word.add_lt offset (s.registers.widthOf id))
    refine ⟨s₂, ?_, hregs₂.trans hregs, hlen₂.trans h₁.length_eq⟩
    rw [storeSlices, estate_get_bind, estate_bind_of_ok hstore, hslices, hregs, Word.add,
      Nat.mod_add_mod, RegisterFile.widths_cons, List.sum_cons, Nat.add_assoc]

/-- Where a number is spread over declared targets, their total width is the last sum that is
taken, and the largest. -/
theorem storeOverruns_eq {rs : RegisterFile}
    (hdecl : ∀ id ∈ ids, id.isUsed = true → rs.declares id = true) {offset : Nat}
    (hoffset : offset < Word.modulus) :
    storeOverruns rs offset ids = Word.overruns (offset + (rs.widths ids).sum) := by
  induction ids generalizing offset with
  | nil => simp [storeOverruns, Word.overruns, hoffset]
  | cons id ids ih =>
    rw [List.forall_mem_cons] at hdecl
    have htaken : (!id.isUsed || rs.declares id) = true := by
      cases hused : id.isUsed with
      | false => rfl
      | true => exact hdecl.1 hused
    rw [storeOverruns, htaken, Bool.true_and, RegisterFile.widths_cons, List.sum_cons,
      ← Nat.add_assoc]
    rcases Nat.lt_or_ge (offset + rs.widthOf id) Word.modulus with hlt | hge
    · rw [ih hdecl.2 hlt, Word.overruns_eq_false.2 hlt, Bool.false_or]
    · rw [Word.overruns_eq_true.2 hge, Word.overruns_eq_true.2 (by omega), Bool.true_or]

/-- Once its slices are stored, a number is accepted if it is below `2 ^` the width reached. -/
theorem storeAcross_of_slices {v : Int} {width : Nat}
    (h : storeSlices (decide (v < 0)) (spreadSource v) 0 ids s = .ok width s₁) :
    storeAcross v ids s = if v < 2 ^ width then .ok () s₁ else
      .error (.widthViolation (", ".intercalate (ids.reverse.map s₁.registers.nameOf)) width
        v.toNat) s₁ := by
  have hpos : (0 : Int) < 2 ^ width := by positivity
  unfold storeAcross
  rw [estate_bind_of_ok h]
  rcases Int.lt_or_le v 0 with hneg | hnonneg
  · simp [hneg, hneg.trans hpos, pure, EStateM.pure]
  · obtain ⟨n, rfl⟩ := Int.eq_ofNat_of_zero_le hnonneg
    have hsource : spreadSource n = n := by simp [spreadSource]
    have hlt : (n : Int) < 2 ^ width ↔ n >>> width = 0 := by
      rw [Nat.shiftRight_eq_div_pow, Nat.div_eq_zero_iff_lt (Nat.two_pow_pos width)]
      exact_mod_cast Iff.rfl
    by_cases hzero : n >>> width = 0
    · simp [hsource, hlt, hzero, pure, EStateM.pure]
    · simp [hsource, hlt, hzero, estate_get_bind]
      rfl

/-- A number is spread over declared targets if it is below `2 ^` their total width. -/
theorem storeAcross_eq (v : Int) (hs : s.values.length = s.registers.length)
    (hdecl : ∀ id ∈ ids, id.isUsed = true → s.registers.declares id = true) :
    ∃ s₁, s₁.registers = s.registers ∧ s₁.values.length = s.values.length ∧
      storeAcross v ids s = if v < 2 ^ s.registers.totalWidth ids then .ok () s₁
        else .error (s.registers.tooWide ids v.toNat) s₁ := by
  obtain ⟨s₁, hslices, hregs, hlen⟩ :=
    storeSlices_total (decide (v < 0)) (spreadSource v) hs hdecl
    Word.modulus_pos
  refine ⟨s₁, hregs, hlen, ?_⟩
  rw [storeAcross_of_slices hslices, hregs, Nat.zero_add]
  rfl

/-- Whether or not a number is accepted, its targets take the digits of its residue. -/
theorem storeAcross_assigned (v : Int) (hs : s.values.length = s.registers.length) (hnd : ids.Nodup)
    (hdecl : ∀ id ∈ ids, id.isUsed = true → s.registers.declares id = true)
    (hsize : (s.registers.widths ids).sum < Word.modulus) :
    ∃ s₁, storeAcross v ids s = (if v < 2 ^ (s.registers.widths ids).sum then .ok () s₁
        else .error (s.registers.tooWide ids v.toNat) s₁) ∧
      s.Assigned ids (Digits.cut (s.registers.widths ids)
        (v % 2 ^ (s.registers.widths ids).sum).toNat) s₁ := by
  obtain ⟨s₁, hslices, h₁⟩ := storeSlices_ok v hs hnd hdecl 0 (s.registers.widths ids).sum
    (by omega) (by omega)
  rw [Nat.pow_zero, Nat.div_one] at h₁
  rw [Nat.zero_add] at hslices
  refine ⟨s₁, ?_, h₁⟩
  rw [storeAcross_of_slices hslices, h₁.registers_eq, RegisterFile.tooWide,
    RegisterFile.totalWidth_eq hsize]

/-- A number that fits its targets, or a negative one, is stored as its digits. -/
theorem storeAcross_ok {v : Int} (hs : s.values.length = s.registers.length) (hnd : ids.Nodup)
    (hdecl : ∀ id ∈ ids, id.isUsed = true → s.registers.declares id = true)
    (hsize : (s.registers.widths ids).sum < Word.modulus)
    (hv : v < 2 ^ (s.registers.widths ids).sum) :
    ∃ s₁, storeAcross v ids s = .ok () s₁ ∧ s.Assigned ids
      (Digits.cut (s.registers.widths ids) (v % 2 ^ (s.registers.widths ids).sum).toNat) s₁ := by
  obtain ⟨s₁, hstore, h₁⟩ := storeAcross_assigned v hs hnd hdecl hsize
  exact ⟨s₁, by rw [hstore, if_pos hv], h₁⟩

/-- A natural number that fits its targets is stored as its digits. -/
theorem storeAcross_nat_ok {n : Nat} (hs : s.values.length = s.registers.length) (hnd : ids.Nodup)
    (hdecl : ∀ id ∈ ids, id.isUsed = true → s.registers.declares id = true)
    (hsize : (s.registers.widths ids).sum < Word.modulus)
    (hn : n < 2 ^ (s.registers.widths ids).sum) :
    ∃ s₁, storeAcross (n : Int) ids s = .ok () s₁ ∧
      s.Assigned ids (Digits.cut (s.registers.widths ids) n) s₁ := by
  obtain ⟨s₁, hstore, h₁⟩ :=
    storeAcross_ok (v := n) hs hnd hdecl hsize (by exact_mod_cast hn)
  rw [Int.emod_eq_of_lt (by omega) (by exact_mod_cast hn), Int.toNat_natCast] at h₁
  exact ⟨s₁, hstore, h₁⟩

/-- Digits may be stored wherever there are registers for them. -/
theorem takes_cut {rs : RegisterFile} {ids : List RegId} (n : Nat)
    (hdecl : ∀ id ∈ ids, id.isUsed = true → rs.declares id = true) :
    List.Forall₂ (Takes rs) ids (Digits.cut (rs.widths ids) n) := by
  induction ids generalizing n with
  | nil => exact .nil
  | cons id ids ih =>
    refine .cons (fun hu => ⟨hdecl id List.mem_cons_self hu,
      Nat.mod_lt _ (Nat.two_pow_pos _)⟩) ?_
    exact ih _ fun id' hid' => hdecl id' (List.mem_cons_of_mem _ hid')

end State

end LimbMachine
