import LimbMachine.Proofs.Check.Accepted
import LimbMachine.Proofs.Split.Layout

/-!
# States over limbs

A state over limbs `Represents` a state when the limbs of every register make up its value. Split
code stores into the limbs of its targets and into registers allocated for it and leaves all other
registers alone (`State.Touches`); if its targets end up with the right number, the states after the
step still correspond (`Pool.Represents.store`).

Split code without branches runs from one state to the next (`Microcode.Runs`).
-/

namespace LimbMachine

/-- `s₁` differs from `s` at most in `ids` and in registers that are not in `known`. -/
structure State.Touches (known : RegisterFile) (ids : List RegId) (s s₁ : State) : Prop where
  registers_eq : s₁.registers = s.registers
  pc_eq : s₁.pc = s.pc
  fits : s₁.Fits
  frame : ∀ id, known.declares id = true → id ∉ ids → s₁.load id = s.load id

/-- The targets that a register which may be left out stands for. -/
abbrev RegId.listed (id : RegId) : List RegId := if id.isUsed then [id] else []

theorem RegId.eq_unused {id : RegId} (h : id.isUsed = false) : id = .unused := by
  cases id with
  | unused => rfl
  | reg i => cases h

theorem RegId.mem_listed {id id' : RegId} :
    id' ∈ id.listed ↔ id' = id ∧ id.isUsed = true := by
  unfold listed
  split
  · simp [*]
  · simp [*]

theorem RegisterFile.sum_widths_listed (rs : RegisterFile) (id : RegId) :
    (rs.widths id.listed).sum = rs.widthOf id := by
  cases hu : id.isUsed with
  | true => simp [RegId.listed, hu]
  | false => simp [RegId.eq_unused hu, RegId.listed, RegId.isUsed]

theorem State.packed_listed (s : State) (id : RegId) : s.packed id.listed = s.load id := by
  cases hu : id.isUsed with
  | true => simp [RegId.listed, hu, packed_singleton]
  | false => simp [RegId.eq_unused hu, RegId.listed, RegId.isUsed, packed_nil]

theorem RegisterFile.Knows.storable {rs : RegisterFile} {id : RegId} (h : rs.Knows id)
    (hsize : rs.widthOf id < Word.modulus) : rs.Storable id.listed := by
  refine ⟨?_, fun id' hid' _ => ?_, by rw [sum_widths_listed]; exact hsize⟩
  · unfold RegId.listed
    split
    · exact List.nodup_singleton _
    · exact .nil
  · obtain ⟨rfl, hu⟩ := RegId.mem_listed.1 hid'
    exact h hu

theorem RegisterFile.Storable.widths_eq {rs later : RegisterFile} {ids : List RegId}
    (h : rs.Storable ids) (hpre : rs <+: later) : later.widths ids = rs.widths ids :=
  List.map_congr_left fun id hid =>
    Knows.widthOf_eq hpre fun hu => h.declared id hid hu

theorem RegisterFile.Storable.mono {rs later : RegisterFile} {ids : List RegId}
    (h : rs.Storable ids) (hpre : rs <+: later) : later.Storable ids :=
  ⟨h.nodup, fun id hid hu => declares_mono hpre (h.declared id hid hu), by
    rw [h.widths_eq hpre]
    exact h.size⟩

namespace State

variable {s s₁ s₂ : State} {known later : RegisterFile} {ids ids' : List RegId} {vs : List Nat}

theorem Touches.refl (hs : s.Fits) : Touches known ids s s := ⟨rfl, rfl, hs, fun _ _ _ => rfl⟩

theorem Touches.trans (h : Touches known ids s s₁) (h' : Touches later ids' s₁ s₂)
    (hpre : known <+: later) : Touches known (ids ++ ids') s s₂ := by
  refine ⟨h'.registers_eq.trans h.registers_eq, h'.pc_eq.trans h.pc_eq, h'.fits,
    fun id hid hnot => ?_⟩
  rw [List.mem_append, not_or] at hnot
  rw [h'.frame id (RegisterFile.declares_mono hpre hid) hnot.2, h.frame id hid hnot.1]

/-- What lies outside `known` need not be listed. -/
theorem Touches.narrow (h : Touches known ids s s₁)
    (hsub : ∀ id ∈ ids, known.declares id = true → id ∈ ids') : Touches known ids' s s₁ :=
  ⟨h.registers_eq, h.pc_eq, h.fits, fun id hid hnot => h.frame id hid fun hmem =>
    hnot (hsub id hmem hid)⟩

theorem Assigned.touches (h : s.Assigned ids vs s₁) (hs : s.Fits)
    (htakes : List.Forall₂ (Takes s.registers) ids vs) : Touches known ids s s₁ :=
  ⟨h.registers_eq, h.pc_eq, h.fits hs htakes, fun id _ hnot => h.frame id hnot⟩

theorem Touches.packed_eq (h : Touches known ids s s₁)
    (hknown : ∀ id ∈ ids', known.declares id = true) (hdis : ids'.Disjoint ids) :
    s₁.packed ids' = s.packed ids' := by
  unfold packed
  rw [h.registers_eq]
  congr 1
  exact List.map_congr_left fun id hid => h.frame id (hknown id hid) (hdis hid)

end State

/-- Microcodes one after the other, none of which branches. -/
inductive Microcode.Runs : List Microcode → State → State → Prop
  | nil (s : State) : Runs [] s s
  | cons {code : Microcode} {codes : List Microcode} {s s₁ s₂ : State}
    (first : code.Does s (.skip 1) s₁) (rest : Runs codes s₁ s₂) : Runs (code :: codes) s s₂

theorem Microcode.Runs.append {codes codes' : List Microcode} {s s₁ s₂ : State}
    (h : Runs codes s s₁) (h' : Runs codes' s₁ s₂) : Runs (codes ++ codes') s s₂ := by
  induction h with
  | nil s => exact h'
  | cons first _ ih => exact .cons first (ih h')

namespace Pool

variable {pool early : Pool} {rs : RegisterFile} {s s₁ s' s₁' : State} {id : RegId}
  {targets limbIds : List RegId}

theorem read_lt (hs : pool.Splits rs) (hregs : s'.registers = pool.registers) (hfits : s'.Fits)
    (id : RegId) : pool.read s' id < 2 ^ rs.widthOf id := by
  unfold read
  cases hid : pool.limbs? id with
  | none => simp [State.packed_nil]
  | some limbs =>
    have hlt := hfits.packed_lt limbs
    rwa [hregs, (hs.limbs_spec hid).1, sum_limbWidths hs.width_pos] at hlt

/-- `s'` holds the limbs of the values of `s`. -/
structure Represents (pool : Pool) (s s' : State) : Prop where
  splits : pool.Splits s.registers
  fits : s.Fits
  registers_eq : s'.registers = pool.registers
  limbs_fit : s'.Fits
  pc_eq : s'.pc = s.pc
  read_eq : ∀ id, pool.read s' id = s.load id

namespace Represents

theorem packed_limbs (h : pool.Represents s s') {limbs : List RegId}
    (hid : pool.limbs? id = some limbs) : s'.packed limbs = s.load id := by
  rw [← h.read_eq, read, hid, Option.getD_some]

theorem packed_flatten (h : pool.Represents s s') (hflat : pool.flatten targets = .ok limbIds) :
    s'.packed limbIds = s.packed targets := by
  rw [Pool.packed_flatten h.splits h.registers_eq hflat]
  unfold State.packed
  rw [List.map_congr_left fun id _ => h.read_eq id]

/-- The limbs of a register hold the digits of its value. -/
theorem map_load_limbs (h : pool.Represents s s') {limbs : List RegId}
    (hid : pool.limbs? id = some limbs) :
    limbs.map s'.load =
      Digits.cut (limbWidths pool.width (s.registers.widthOf id)) (s.load id) := by
  rw [← h.packed_limbs hid, State.packed, h.registers_eq, (h.splits.limbs_spec hid).1,
    Digits.cut_join]
  rw [← (h.splits.limbs_spec hid).1, ← h.registers_eq]
  exact h.limbs_fit.fit limbs

/-- Both sides agree again once every stored register does and the others are left alone. -/
theorem of_touches (h : pool.Represents s s') {vs : List Nat} {written : List RegId}
    (hassigned : s.Assigned targets vs s₁)
    (hfits : s₁.Fits) (hearly : early.Splits s.registers) (hext : early.Extends pool)
    (hwritten : ∀ limb ∈ written, limb.isUsed = true →
      ∃ id ∈ targets, ∃ group, pool.limbs? id = some group ∧ limb ∈ group)
    (htouch : s'.Touches early.registers written s₁')
    (hread : ∀ id ∈ targets, pool.read s₁' id = s₁.load id) :
    pool.Represents s₁ s₁' := by
  refine ⟨hassigned.registers_eq ▸ h.splits, hfits, htouch.registers_eq.trans h.registers_eq,
    htouch.fits, ?_, fun id => ?_⟩
  · rw [htouch.pc_eq, hassigned.pc_eq, h.pc_eq]
  · by_cases hid : id ∈ targets
    · exact hread id hid
    · rw [hassigned.frame id hid, ← h.read_eq id]
      unfold read
      cases hlimbs : pool.limbs? id with
      | none => rfl
      | some limbs =>
        have hdecl := (hearly.limbs_spec (by rw [← hext.limbs?_eq]; exact hlimbs)).2
        refine htouch.packed_eq hdecl ?_
        intro limb hlimb hmem
        obtain ⟨id', hid', group, hgroup, hmem'⟩ :=
          hwritten limb hmem (RegisterFile.isUsed_of_declares (hdecl limb hlimb))
        have hne : id ≠ id' := by
          rintro rfl
          exact hid hid'
        exact h.splits.disjoint_limbs hlimbs hgroup hne hlimb hmem'

/-- A number stored across targets is stored across their limbs. -/
theorem store (h : pool.Represents s s') {n : Nat}
    (hassigned : s.Assigned targets (Digits.cut (s.registers.widths targets) n) s₁)
    (hfits : s₁.Fits) (hn : n < 2 ^ (s.registers.widths targets).sum)
    (hearly : early.Splits s.registers) (hext : early.Extends pool)
    (hflat : pool.flatten targets = .ok limbIds) (htouch : s'.Touches early.registers limbIds s₁')
    (hpacked : s₁'.packed limbIds = n) : pool.Represents s₁ s₁' := by
  refine h.of_touches hassigned hfits hearly hext (fun limb hlimb _ => ?_) htouch ?_
  · exact (mem_flatten hflat).1 hlimb
  have hregs : s₁'.registers = pool.registers := htouch.registers_eq.trans h.registers_eq
  have hfit : Digits.Fit (s.registers.widths targets) (targets.map (pool.read s₁')) :=
    List.forall₂_map_left_iff.2 (List.forall₂_map_right_iff.2 (List.forall₂_same.2 fun id _ =>
      read_lt h.splits hregs htouch.fits id))
  have hfit' : Digits.Fit (s.registers.widths targets) (targets.map s₁.load) := by
    rw [← hassigned.registers_eq]
    exact hfits.fit targets
  -- both sides pack the same number, so they agree digit by digit
  have heq : targets.map (pool.read s₁') = targets.map s₁.load := by
    refine (Digits.join_inj hfit hfit').1 ?_
    have hpacked' := hassigned.packed_eq hn
    rw [State.packed, hassigned.registers_eq] at hpacked'
    rw [← Pool.packed_flatten h.splits hregs hflat, hpacked, hpacked']
  intro id hid
  exact List.map_inj_left.1 heq id hid

end Represents

/-- Microcodes that compute a number from a represented state and leave it in the limbs of
`targets`; they were emitted while the pool grew from `early` to `later`. -/
structure Stores (rs : RegisterFile) (early later : Pool) (codes : List Microcode)
    (targets : List RegId) (value : (RegId → Nat) → Nat) : Prop where
  grows : early.Extends later
  runs : ∀ {pool : Pool} {s s' : State}, later.Extends pool → pool.Represents s s' →
    s.registers = rs → (∀ code ∈ codes, code.Narrow pool.registers) →
    ∃ limbIds s₁', pool.flatten targets = .ok limbIds ∧ Microcode.Runs codes s' s₁' ∧
      s'.Touches early.registers limbIds s₁' ∧ s₁'.packed limbIds = value s.load

end Pool

end LimbMachine
