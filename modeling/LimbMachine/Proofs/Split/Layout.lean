import LimbMachine.Proofs.Split.Limbs

/-!
# Limbs side by side

The limbs of a packed list of registers lie side by side (`Limb.Contiguous`), and together they are
as wide as the registers. A limb lies at or above the place it has in its own register
(`Pool.LaidOut.own_offset_le`), which is why limbs may be written while later ones are still to be
read.

`Pool.read` gives the value that the limbs of a register make up; packed limbs hold the packed
registers (`Pool.packed_flatten`).
-/

namespace LimbMachine

/-- Limbs side by side from bit `offset` on, each as wide as its register. -/
def Limb.Contiguous (rs : RegisterFile) : Nat → List Limb → Prop
  | _, [] => True
  | offset, limb :: rest => limb.offset = offset ∧ limb.width = rs.widthOf limb.id ∧
    Contiguous rs (offset + limb.width) rest

/-- Distinct limbs side by side from bit zero on, of a total width that is a size. -/
structure Limb.Placed (rs : RegisterFile) (limbs : List Limb) : Prop where
  nodup : (limbs.map Limb.id).Nodup
  declared : ∀ id ∈ limbs.map Limb.id, rs.declares id = true
  contiguous : Limb.Contiguous rs 0 limbs
  size : (limbs.map Limb.width).sum < Word.modulus

namespace Limb

variable {rs : RegisterFile} {offset : Nat} {limbs limbs' : List Limb} {limb : Limb}

/-- The ids of some limbs. -/
abbrev ids (limbs : List Limb) : List RegId := limbs.map Limb.id

theorem ids_cons (limb : Limb) (rest : List Limb) : ids (limb :: rest) = limb.id :: ids rest := rfl

theorem Contiguous.map_width (h : Contiguous rs offset limbs) :
    limbs.map Limb.width = rs.widths (ids limbs) := by
  induction limbs generalizing offset with
  | nil => rfl
  | cons limb rest ih =>
    obtain ⟨-, hwidth, hrest⟩ := h
    simp [hwidth, ih hrest]

theorem Contiguous.append_iff : Contiguous rs offset (limbs ++ limbs') ↔
    Contiguous rs offset limbs ∧ Contiguous rs (offset + (limbs.map Limb.width).sum) limbs' := by
  induction limbs generalizing offset with
  | nil => simp [Contiguous]
  | cons limb rest ih =>
    simp only [List.cons_append, Contiguous, ih, List.map_cons, List.sum_cons, Nat.add_assoc,
      and_assoc]

theorem Contiguous.bounds (h : Contiguous rs offset limbs) (hmem : limb ∈ limbs) :
    offset ≤ limb.offset ∧ limb.offset + limb.width ≤ offset + (limbs.map Limb.width).sum ∧
      limb.width = rs.widthOf limb.id := by
  induction limbs generalizing offset with
  | nil => cases hmem
  | cons first rest ih =>
    obtain ⟨hoffset, hwidth, hrest⟩ := h
    rw [List.map_cons, List.sum_cons]
    rcases List.mem_cons.1 hmem with rfl | hmem
    · exact ⟨by omega, by omega, hwidth⟩
    · obtain ⟨hlow, hhigh, hw⟩ := ih hrest hmem
      exact ⟨by omega, by omega, hw⟩

/-- The limb of an id lies as far up as the limbs before it are wide. -/
theorem Contiguous.offset_unique {offset' : Nat} {limb' : Limb} (h : Contiguous rs offset limbs)
    (h' : Contiguous rs offset' limbs') (hids : ids limbs = ids limbs') (hnd : (ids limbs).Nodup)
    (hmem : limb ∈ limbs) (hmem' : limb' ∈ limbs') (hid : limb.id = limb'.id) :
    limb.offset + offset' = limb'.offset + offset := by
  induction limbs generalizing offset offset' limbs' with
  | nil => cases hmem
  | cons first rest ih =>
    cases limbs' with
    | nil => cases hmem'
    | cons first' rest' =>
      obtain ⟨ho, hw, hr⟩ := h
      obtain ⟨ho', hw', hr'⟩ := h'
      simp only [ids, List.map_cons, List.cons.injEq] at hids
      simp only [ids, List.map_cons, List.nodup_cons] at hnd
      have hnot : ∀ l ∈ rest, l.id ≠ first.id := fun l hl he =>
        hnd.1 (he ▸ List.mem_map_of_mem hl)
      have hnot' : ∀ l ∈ rest', l.id ≠ first'.id := fun l hl he => by
        refine hnd.1 ?_
        rw [hids.1, hids.2, ← he]
        exact List.mem_map_of_mem hl
      rcases List.mem_cons.1 hmem with rfl | hin
      · rcases List.mem_cons.1 hmem' with rfl | hin'
        · omega
        · exact absurd (hid.symm.trans hids.1) (hnot' _ hin')
      · rcases List.mem_cons.1 hmem' with rfl | hin'
        · exact absurd (hid.trans hids.1.symm) (hnot _ hin)
        · have hsame : first.width = first'.width := by rw [hw, hw', hids.1]
          have := ih hr hr' hids.2 hnd.2 hin hin'
          omega

/-- Limbs with bits lie one above the other. -/
theorem Contiguous.pairwise_wide (h : Contiguous rs offset limbs) :
    (limbs.filter fun limb => 0 < limb.width).Pairwise fun limb later =>
      limb.offset < later.offset := by
  induction limbs generalizing offset with
  | nil => exact .nil
  | cons limb rest ih =>
    obtain ⟨hoffset, -, hrest⟩ := h
    by_cases hpos : 0 < limb.width
    · rw [List.filter_cons_of_pos (by simpa using hpos)]
      refine .cons ?_ (ih hrest)
      intro later hlater
      have hbound := (hrest.bounds (List.mem_filter.1 hlater).1).1
      omega
    · rw [List.filter_cons_of_neg (by simpa using hpos)]
      exact ih hrest

/-- The slices of a number at limbs side by side are its digits. -/
theorem Contiguous.map_bitSlice (h : Contiguous rs offset limbs) (n : Nat) :
    (limbs.map fun limb => bitSlice n limb.offset limb.width) =
      Digits.cut (limbs.map Limb.width) (n / 2 ^ offset) := by
  induction limbs generalizing offset with
  | nil => rfl
  | cons limb rest ih =>
    obtain ⟨hoffset, -, hrest⟩ := h
    rw [List.map_cons, List.map_cons, Digits.cut_cons, ih hrest, Nat.div_div_eq_div_mul,
      ← Nat.pow_add, hoffset, bitSlice, Nat.shiftRight_eq_div_pow]

/-- Numbers shifted to limbs side by side add up to the number that they are the digits of. -/
theorem Contiguous.sum_shiftLeft (h : Contiguous rs offset limbs) (ds : List Nat) :
    ((limbs.zip ds).map fun (limb, d) => d <<< limb.offset).sum =
      2 ^ offset * Digits.join (limbs.map Limb.width) ds := by
  induction limbs generalizing offset ds with
  | nil => simp
  | cons limb rest ih =>
    cases ds with
    | nil => simp
    | cons d ds =>
      obtain ⟨hoffset, -, hrest⟩ := h
      have hd : d <<< limb.offset = d * 2 ^ offset := by rw [hoffset, Nat.shiftLeft_eq]
      rw [List.zip_cons_cons, List.map_cons, List.sum_cons, ih hrest, List.map_cons,
        Digits.join_cons, Nat.pow_add]
      simp only [hd]
      ring

/-- Digits given limb by limb, at the places of the limbs. -/
theorem Contiguous.sum_digits (h : Contiguous rs offset limbs) (digit : Limb → Nat) :
    (limbs.map fun limb => 2 ^ limb.offset * digit limb).sum =
      2 ^ offset * Digits.join (limbs.map Limb.width) (limbs.map digit) := by
  induction limbs generalizing offset with
  | nil => rfl
  | cons limb rest ih =>
    obtain ⟨hoffset, -, hrest⟩ := h
    simp only [List.map_cons, List.sum_cons, Digits.join_cons, ih hrest, hoffset, Nat.pow_add]
    ring

theorem length_cutAt (value : Nat) (limbs : List Limb) :
    (cutAt value limbs).length = limbs.length := by
  induction limbs with
  | nil => rfl
  | cons limb rest ih =>
    cases rest with
    | nil => rfl
    | cons next rest => simpa [cutAt] using ih

/-- A value cut along limbs has its parts as digits, the last of which is not bounded. -/
theorem Contiguous.join_cutAt (h : Contiguous rs offset limbs) (hne : limbs ≠ []) (value : Nat) :
    Digits.join (limbs.map Limb.width) (cutAt value limbs) = value / 2 ^ offset := by
  induction limbs generalizing offset with
  | nil => exact absurd rfl hne
  | cons limb rest ih =>
    obtain ⟨hoffset, -, hrest⟩ := h
    cases rest with
    | nil => simp [cutAt, Digits.join_cons, hoffset, Nat.shiftRight_eq_div_pow]
    | cons next rest =>
      rw [cutAt, List.map_cons, Digits.join_cons, ih hrest (List.cons_ne_nil _ _), Nat.pow_add,
        ← Nat.div_div_eq_div_mul, bitSlice, hoffset, Nat.shiftRight_eq_div_pow]
      · exact Nat.mod_add_div _ _
      · exact List.cons_ne_nil _ _

/-- Limbs cut at the same widths lie at the same places. -/
theorem Contiguous.map_offset_eq (h : Contiguous rs offset limbs) {rs' : RegisterFile}
    (h' : Contiguous rs' offset limbs')
    (hwidth : limbs.map Limb.width = limbs'.map Limb.width) :
    limbs.map Limb.offset = limbs'.map Limb.offset := by
  induction limbs generalizing offset limbs' with
  | nil =>
    rw [List.map_eq_nil_iff.1 hwidth.symm]
  | cons limb rest ih =>
    cases limbs' with
    | nil => cases hwidth
    | cons limb' rest' =>
      obtain ⟨hoffset, -, hrest⟩ := h
      obtain ⟨hoffset', -, hrest'⟩ := h'
      rw [List.map_cons, List.map_cons, List.cons.injEq] at hwidth
      rw [← hwidth.1] at hrest'
      rw [List.map_cons, List.map_cons, ih hrest hrest' hwidth.2, hoffset, hoffset']

theorem Contiguous.mono {later : RegisterFile} (hc : Contiguous rs offset limbs)
    (h : rs <+: later)
    (hdecl : ∀ id ∈ ids limbs, rs.declares id = true) :
    Contiguous later offset limbs := by
  induction limbs generalizing offset with
  | nil => trivial
  | cons limb rest ih =>
    obtain ⟨hoffset, hwidth, hrest⟩ := hc
    refine ⟨hoffset, ?_, ih hrest fun id hid => hdecl id (List.mem_cons_of_mem _ hid)⟩
    rw [hwidth, RegisterFile.widthOf_mono h (hdecl _ List.mem_cons_self)]

theorem Placed.width_lt (h : Placed rs limbs) :
    ∀ id ∈ ids limbs, rs.widthOf id < Word.modulus := by
  intro id hid
  obtain ⟨limb, hlimb, rfl⟩ := List.mem_map.1 hid
  obtain ⟨-, hle, hwidth⟩ := h.contiguous.bounds hlimb
  have := h.size
  omega

theorem Placed.mono {later : RegisterFile} (h : Placed rs limbs) (hpre : rs <+: later) :
    Placed later limbs :=
  ⟨h.nodup, fun id hid => RegisterFile.declares_mono hpre (h.declared id hid),
    h.contiguous.mono hpre h.declared, h.size⟩

end Limb

namespace Pool

variable {pool later : Pool} {rs : RegisterFile} {id : RegId} {ids limbIds : List RegId}
  {limbs own : List Limb}

theorem flatten_nil : pool.flatten [] = .ok limbIds ↔ limbIds = [] := by
  simp [flatten, Except.map, pure, Except.pure, eq_comm]

theorem flatten_cons : pool.flatten (id :: ids) = .ok limbIds ↔ ∃ first rest,
    pool.limbs? id = some first ∧ pool.flatten ids = .ok rest ∧ limbIds = first ++ rest := by
  unfold flatten
  simp only [except_map_ok, except_mapM_ok]
  constructor
  · rintro ⟨groups, hgroups, rfl⟩
    cases hgroups with
    | @cons _ first _ groups hfirst hrest =>
      exact ⟨first, groups.flatten, tryLimbs_ok_iff.1 hfirst, ⟨groups, hrest, rfl⟩, rfl⟩
  · rintro ⟨first, rest, hfirst, ⟨groups, hrest, rfl⟩, rfl⟩
    exact ⟨first :: groups, .cons (tryLimbs_ok_iff.2 hfirst) hrest, rfl⟩

theorem flatten_append {ids' limbIds' : List RegId} (h : pool.flatten ids = .ok limbIds)
    (h' : pool.flatten ids' = .ok limbIds') :
    pool.flatten (ids ++ ids') = .ok (limbIds ++ limbIds') := by
  induction ids generalizing limbIds with
  | nil =>
    rw [flatten_nil.1 h]
    exact h'
  | cons id ids ih =>
    obtain ⟨first, rest, hfirst, hrest, rfl⟩ := flatten_cons.1 h
    exact flatten_cons.2 ⟨first, _, hfirst, ih hrest, List.append_assoc _ _ _⟩

theorem flatten_singleton : pool.flatten [id] = .ok limbIds ↔ pool.limbs? id = some limbIds := by
  constructor
  · intro h
    obtain ⟨first, rest, hfirst, hrest, rfl⟩ := flatten_cons.1 h
    rw [flatten_nil.1 hrest, List.append_nil]
    exact hfirst
  · intro h
    exact flatten_cons.2 ⟨limbIds, [], h, flatten_nil.2 rfl, (List.append_nil _).symm⟩

theorem Extends.flatten_eq (h : pool.Extends later) (ids : List RegId) :
    later.flatten ids = pool.flatten ids := by
  have htry : later.tryLimbs = pool.tryLimbs := by
    funext id
    unfold tryLimbs
    rw [h.limbs?_eq]
  unfold flatten
  rw [htry]

theorem mem_flatten (h : pool.flatten ids = .ok limbIds) {limb : RegId} :
    limb ∈ limbIds ↔ ∃ id ∈ ids, ∃ group, pool.limbs? id = some group ∧
      limb ∈ group := by
  induction ids generalizing limbIds with
  | nil =>
    rw [flatten_nil] at h
    simp [h]
  | cons id ids ih =>
    obtain ⟨first, rest, hfirst, hrest, rfl⟩ := flatten_cons.1 h
    simp [ih hrest, hfirst]

theorem Splits.declares_of_flatten (h : pool.Splits rs) (hflat : pool.flatten ids = .ok limbIds) :
    ∀ id ∈ ids, rs.declares id = true := by
  induction ids generalizing limbIds with
  | nil => simp
  | cons id ids ih =>
    obtain ⟨first, rest, hfirst, hrest, rfl⟩ := flatten_cons.1 hflat
    intro id' hid'
    rcases List.mem_cons.1 hid' with rfl | hid'
    · rw [← h.limbs?_isSome, hfirst]
      rfl
    · exact ih hrest id' hid'

theorem Splits.declares_limbs (h : pool.Splits rs) (hflat : pool.flatten ids = .ok limbIds) :
    ∀ limb ∈ limbIds, pool.registers.declares limb = true := by
  intro limb hlimb
  obtain ⟨id, -, group, hgroup, hmem⟩ := (mem_flatten hflat).1 hlimb
  exact (h.limbs_spec hgroup).2 limb hmem

/-- The limbs of some registers are together as wide as the registers. -/
theorem Splits.sum_widths_flatten (h : pool.Splits rs) (hflat : pool.flatten ids = .ok limbIds) :
    (pool.registers.widths limbIds).sum = (rs.widths ids).sum := by
  induction ids generalizing limbIds with
  | nil =>
    rw [flatten_nil] at hflat
    simp [hflat]
  | cons id ids ih =>
    obtain ⟨first, rest, hfirst, hrest, rfl⟩ := flatten_cons.1 hflat
    rw [RegisterFile.widths_append, List.sum_append, ih hrest, RegisterFile.widths_cons,
      List.sum_cons, (h.limbs_spec hfirst).1, sum_limbWidths h.width_pos]

theorem Splits.nodup_flatten (h : pool.Splits rs) (hflat : pool.flatten ids = .ok limbIds)
    (hnd : ids.Nodup) : limbIds.Nodup := by
  induction ids generalizing limbIds with
  | nil =>
    rw [flatten_nil] at hflat
    simp [hflat]
  | cons id ids ih =>
    obtain ⟨first, rest, hfirst, hrest, rfl⟩ := flatten_cons.1 hflat
    rw [List.nodup_cons] at hnd
    refine (h.nodup_limbs hfirst).append (ih hrest hnd.2) fun limb hlimb hlimb' => ?_
    obtain ⟨id', hid', group, hgroup, hmem⟩ := (mem_flatten hrest).1 hlimb'
    have hne : id ≠ id' := by
      rintro rfl
      exact hnd.1 hid'
    exact h.disjoint_limbs hfirst hgroup hne hlimb hmem

/-! ## Layouts -/

theorem ids_place (offset : Nat) (limbIds : List RegId) :
    Limb.ids (pool.place offset limbIds) = limbIds := by
  induction limbIds generalizing offset with
  | nil => rfl
  | cons id rest ih => simp [place, ih]

theorem mem_place {offset : Nat} {limb : Limb} (h : limb ∈ pool.place offset limbIds) :
    limb.id ∈ limbIds ∧ limb.width = pool.registers.widthOf limb.id := by
  induction limbIds generalizing offset with
  | nil => cases h
  | cons id rest ih =>
    rcases List.mem_cons.1 h with rfl | h
    · exact ⟨List.mem_cons_self, rfl⟩
    · obtain ⟨hid, hwidth⟩ := ih h
      exact ⟨List.mem_cons_of_mem _ hid, hwidth⟩

/-- A register of the pool that is no wider than the limb width. -/
structure IsLimb (pool : Pool) (limb : Limb) : Prop where
  declared : pool.registers.declares limb.id = true
  width_eq : limb.width = pool.registers.widthOf limb.id
  narrow : limb.width ≤ pool.width

theorem Splits.isLimb (h : pool.Splits rs) (hlayout : pool.layout ids = .ok limbs) :
    ∀ limb ∈ limbs, pool.IsLimb limb := by
  obtain ⟨limbIds, hflat, rfl⟩ := except_map_ok.1 hlayout
  intro limb hlimb
  obtain ⟨hid, hwidth⟩ := mem_place hlimb
  obtain ⟨id, -, group, hgroup, hmem⟩ := (mem_flatten hflat).1 hid
  obtain ⟨hwidths, hdecl⟩ := h.limbs_spec hgroup
  refine ⟨hdecl _ hmem, hwidth, ?_⟩
  have hin : pool.registers.widthOf limb.id ∈ limbWidths pool.width (rs.widthOf id) := by
    rw [← hwidths]
    exact List.mem_map_of_mem hmem
  rw [hwidth]
  exact limbWidths_le _ hin

theorem contiguous_place {offset : Nat}
    (h : offset + (pool.registers.widths limbIds).sum < Word.modulus) :
    Limb.Contiguous pool.registers offset (pool.place offset limbIds) := by
  induction limbIds generalizing offset with
  | nil => trivial
  | cons id rest ih =>
    rw [RegisterFile.widths_cons, List.sum_cons] at h
    refine ⟨rfl, rfl, ?_⟩
    rw [Word.add_eq (by omega)]
    exact ih (Nat.add_assoc offset _ _ ▸ h)

/-- The limbs of some registers, side by side. -/
structure LaidOut (pool : Pool) (ids : List RegId) (limbs : List Limb) : Prop where
  flatten_eq : pool.flatten ids = .ok (Limb.ids limbs)
  contiguous : Limb.Contiguous pool.registers 0 limbs

theorem Splits.laidOut (h : pool.Splits rs) (hsize : (rs.widths ids).sum < Word.modulus)
    (hlayout : pool.layout ids = .ok limbs) : pool.LaidOut ids limbs := by
  unfold layout at hlayout
  obtain ⟨limbIds, hflat, rfl⟩ := except_map_ok.1 hlayout
  rw [← h.sum_widths_flatten hflat] at hsize
  exact ⟨by rw [ids_place]; exact hflat, contiguous_place (by omega)⟩

namespace LaidOut

theorem mono (h : pool.LaidOut ids limbs) (hs : pool.Splits rs) (hext : pool.Extends later) :
    later.LaidOut ids limbs :=
  ⟨by rw [hext.flatten_eq]; exact h.flatten_eq,
    h.contiguous.mono hext.registers (hs.declares_limbs h.flatten_eq)⟩

theorem declares (h : pool.LaidOut ids limbs) (hs : pool.Splits rs) :
    ∀ id ∈ Limb.ids limbs, pool.registers.declares id = true := hs.declares_limbs h.flatten_eq

theorem nodup (h : pool.LaidOut ids limbs) (hs : pool.Splits rs) (hnd : ids.Nodup) :
    (Limb.ids limbs).Nodup := hs.nodup_flatten h.flatten_eq hnd

theorem sum_width (h : pool.LaidOut ids limbs) (hs : pool.Splits rs) :
    (limbs.map Limb.width).sum = (rs.widths ids).sum := by
  rw [h.contiguous.map_width, hs.sum_widths_flatten h.flatten_eq]

theorem width_lt (h : pool.LaidOut [id] limbs) (hs : pool.Splits rs)
    (hsize : rs.widthOf id < Word.modulus) {limb : Limb} (hlimb : limb ∈ limbs) :
    limb.width < Word.modulus := by
  have hle := (h.contiguous.bounds hlimb).2.1
  rw [h.sum_width hs] at hle
  simp only [RegisterFile.widths_cons, RegisterFile.widths_nil, List.sum_cons, List.sum_nil] at hle
  omega

theorem map_width (h : pool.LaidOut [id] limbs) (hs : pool.Splits rs) :
    limbs.map Limb.width = limbWidths pool.width (rs.widthOf id) := by
  rw [h.contiguous.map_width, (hs.limbs_spec (flatten_singleton.1 h.flatten_eq)).1]

/-- Limbs of distinct registers can be written as one number. -/
theorem placed (h : pool.LaidOut ids limbs) (hs : pool.Splits rs) (hnd : ids.Nodup)
    (hsize : (rs.widths ids).sum < Word.modulus) : Limb.Placed pool.registers limbs :=
  ⟨h.nodup hs hnd, h.declares hs, h.contiguous, by rw [h.sum_width hs]; exact hsize⟩

/-- A limb lies at or above its place in its own register. -/
theorem own_offset_le (h : pool.LaidOut ids limbs) (hown : pool.LaidOut [id] own)
    (hs : pool.Splits rs) {limb limb' : Limb} (hmem : limb ∈ limbs) (hmem' : limb' ∈ own)
    (hid : limb.id = limb'.id) : limb'.offset ≤ limb.offset := by
  have hgroup := flatten_singleton.1 hown.flatten_eq
  suffices hgen : ∀ {ids limbs offset}, pool.flatten ids = .ok (Limb.ids limbs) →
      Limb.Contiguous pool.registers offset limbs → limb ∈ limbs →
      limb'.offset ≤ limb.offset from
    hgen h.flatten_eq h.contiguous hmem
  intro ids
  induction ids with
  | nil =>
    intro limbs offset hflat _ hin
    rw [flatten_nil, List.map_eq_nil_iff] at hflat
    subst hflat
    cases hin
  | cons first ids ih =>
    intro limbs offset hflat hcont hin
    obtain ⟨firstIds, restIds, hfirst, hrest, hids⟩ := flatten_cons.1 hflat
    obtain ⟨l₁, l₂, rfl, h₁, h₂⟩ := List.map_eq_append_iff.1 hids
    rw [Limb.Contiguous.append_iff] at hcont
    rcases List.mem_append.1 hin with hin | hin
    · -- the limb belongs to the first register, which then is its own register
      have hsame : first = id := by
        by_contra hne
        refine hs.disjoint_limbs hfirst hgroup hne (a := limb.id) ?_ ?_
        · rw [← h₁]
          exact List.mem_map_of_mem hin
        · rw [hid]
          exact List.mem_map_of_mem hmem'
      subst hsame
      rw [hgroup] at hfirst
      cases hfirst
      have := hcont.1.offset_unique hown.contiguous h₁
        (by rw [show Limb.ids l₁ = Limb.ids own from h₁]; exact hs.nodup_limbs hgroup)
        hin hmem' hid
      omega
    · exact ih (by rw [hrest, ← h₂]) hcont.2 hin

end LaidOut

/-! ## Values -/

/-- The value that the limbs of a register make up; an id without limbs reads as zero. -/
def read (pool : Pool) (s : State) (id : RegId) : Nat := s.packed ((pool.limbs? id).getD [])

theorem packed_flatten {s : State} (h : pool.Splits rs) (hregs : s.registers = pool.registers)
    (hflat : pool.flatten ids = .ok limbIds) :
    s.packed limbIds = Digits.join (rs.widths ids) (ids.map (pool.read s)) := by
  induction ids generalizing limbIds with
  | nil =>
    rw [flatten_nil] at hflat
    simp [hflat, State.packed_nil]
  | cons id ids ih =>
    obtain ⟨first, rest, hfirst, hrest, rfl⟩ := flatten_cons.1 hflat
    rw [State.packed_append, ih hrest, RegisterFile.widths_cons, List.map_cons, Digits.join_cons,
      hregs, (h.limbs_spec hfirst).1, sum_limbWidths h.width_pos, read, hfirst, Option.getD_some]

end Pool

end LimbMachine
