import LimbMachine.Proofs.Split.Capacity
import LimbMachine.Proofs.Split.Carries
import LimbMachine.Proofs.Split.Refusals

/-!
# Lowered microcodes on their own

An accepted subtraction, cast or comparison is lowered apart from the routine it is part of, over
any pool that splits its registers, and run from any state that holds the limbs of a state
(`Pool.Holds`). The borrows of a subtraction telescope, and none of them gets wider than a size
(`splitSubtraction_telescopes`). A cast fails just where its guards or its own narrow casts do
(`splitCast_guards`), and a comparison branches just where some group of limbs differs
(`Microcode.lower_decides`).
-/

namespace LimbMachine

/-! ## States that hold limbs -/

/-- `s'` holds the limbs of the values of `s`, wherever the two stand in their routines. -/
structure Pool.Holds (pool : Pool) (s s' : State) : Prop where
  registers_eq : s'.registers = pool.registers
  fits : s'.Fits
  read_eq : ∀ id, pool.read s' id = s.load id

/-- The limbs of all declared registers but `targets` are as before. -/
def Pool.Leaves (pool : Pool) (rs : RegisterFile) (targets : List RegId) (s' s₁' : State) :
    Prop :=
  ∀ id, rs.declares id = true → id ∉ targets →
    ∀ limb ∈ pool.group id, s₁'.load limb = s'.load limb

namespace Pool.Holds

variable {pool early : Pool} {s s' s₁' : State} {targets limbIds : List RegId}

theorem represents (h : pool.Holds s s') (hs : pool.Splits s.registers) (hfits : s.Fits) :
    pool.Represents { s with pc := s'.pc } s' :=
  ⟨hs, ⟨hfits.length_eq, hfits.load_lt⟩, h.registers_eq, h.fits, rfl, h.read_eq⟩

/-- Lowered code that leaves the right number in the limbs of the targets does what the microcode
does, and leaves all other limbs alone. -/
theorem store {code : Microcode} {n : Nat} (h : pool.Holds s s') (hfits : s.Fits)
    (hlocal : code.isLocal = true) (hrun : code.Runnable s.registers)
    (heffect : code.effect s.registers s.load =
      ⟨targets, Digits.cut (s.registers.widths targets) n, .skip 1⟩)
    (hearly : early.Splits s.registers) (hext : early.Extends pool)
    (hflat : pool.flatten targets = .ok limbIds) (htouch : s'.Touches early.registers limbIds s₁')
    (hpacked : s₁'.packed limbIds = n) :
    ∃ s₁, code.Does s (.skip 1) s₁ ∧ pool.Holds s₁ s₁' ∧
      pool.Leaves s.registers targets s' s₁' := by
  have hs := hearly.mono hext
  obtain ⟨s₁, hdoes, hassigned, htakes⟩ := Microcode.does_effect hlocal hrun hfits
  rw [heffect] at hdoes hassigned htakes
  have hfits₁ := hassigned.fits hfits htakes
  have hn : n < 2 ^ (s.registers.widths targets).sum := by
    have hlt := htouch.fits.packed_lt limbIds
    rwa [hpacked, htouch.registers_eq, h.registers_eq, hs.sum_widths_flatten hflat] at hlt
  have hassigned' : State.Assigned { s with pc := s'.pc } targets
      (Digits.cut (s.registers.widths targets) n) { s₁ with pc := s'.pc } :=
    ⟨hassigned.registers_eq, rfl, hassigned.length_eq, hassigned.taken, hassigned.frame⟩
  have hrep := (h.represents hs hfits).store hassigned'
    ⟨hfits₁.length_eq, hfits₁.load_lt⟩ hn hearly
    hext hflat htouch hpacked
  refine ⟨s₁, hdoes, ⟨hrep.registers_eq, htouch.fits, hrep.read_eq⟩,
    fun id hid hnot limb hlimb => ?_⟩
  rw [← hext.group_eq] at hlimb
  refine htouch.frame limb (hearly.declares_group hid limb hlimb) fun hmem => ?_
  -- the limbs of one register are not those of another
  obtain ⟨id', hid', group, hgroup, hmem'⟩ := (mem_flatten hflat).1 hmem
  have hknown : s.registers.declares id' = true := by
    rw [← hs.limbs?_isSome, hgroup]
    rfl
  rw [hext.group_eq] at hlimb
  exact hs.disjoint_group (.of_declares hid) (.of_declares hknown)
    (fun heq => hnot (heq ▸ hid')) hlimb (group_eq hgroup ▸ hmem')

end Pool.Holds

/-! ## The way out of fragments -/

/-- The state that a microcode leaves can be computed. -/
theorem Microcode.Does.state_eq {code : Microcode} {s s₁ : State} {step : Step}
    (h : code.Does s step s₁) :
    s₁ = (finalState (code.execute Boundary.closed ⟨s, ()⟩)).state := by
  rw [h Boundary.closed ()]
  rfl

namespace Fragment

variable {fragments : List Fragment} {s s₁ s₂ : State} {exit exit' : Exit}

/-- Fragments lead one way only. -/
theorem Runs.unique (h : Runs fragments s exit s₁) (h' : Runs fragments s exit' s₂) :
    exit' = exit ∧ s₂ = s₁ := by
  have hskip : ∀ {code : Nat → Microcode} {s s₁ s₂ : State},
      (∀ d, (code d).Does s (.skip 1) s₁) →
      ¬ ∀ d, (code d).Does s (.skip (Word.add 1 d)) s₂ :=
    fun hnext hbranch =>
      absurd (Step.skip.inj (Microcode.Does.unique (hnext 1) (hbranch 1)).1) (by decide)
  have hstays : ∀ {code : Microcode} {s s₁ s₂ : State} {step : Step} {count : Nat},
      step.leaves = true → code.Does s step s₁ → ¬ code.Does s (.skip count) s₂ := by
    intro code s s₁ s₂ step count hleaves hleave hstay
    rw [(Microcode.Does.unique hleave hstay).1] at hleaves
    cases hleaves
  induction h generalizing exit' s₂ with
  | nil s =>
    cases h'
    exact ⟨rfl, rfl⟩
  | next first _ ih =>
    cases h' with
    | next first' others =>
      obtain ⟨-, rfl⟩ := Microcode.Does.unique (first 0) (first' 0)
      exact ih others
    | branch _ first' => exact (hskip first first').elim
    | leave leaves first' => exact (hstays leaves (first' 0) (first 0)).elim
  | branch named first =>
    cases h' with
    | next first' _ => exact (hskip first' first).elim
    | branch named' _ =>
      rw [named] at named'
      cases named'
      exact ⟨rfl, rfl⟩
    | leave leaves first' => exact (hstays leaves (first' 0) (first 0)).elim
  | leave leaves first =>
    cases h' with
    | next first' _ => exact (hstays leaves (first 0) (first' 0)).elim
    | branch _ first' => exact (hstays leaves (first 0) (first' 0)).elim
    | leave _ first' =>
      obtain ⟨rfl, rfl⟩ := Microcode.Does.unique (first 0) (first' 0)
      exact ⟨rfl, rfl⟩

theorem Runs.iff (h : Runs fragments s exit s₁) :
    Runs fragments s exit' s₂ ↔ exit' = exit ∧ s₂ = s₁ :=
  ⟨h.unique, fun ⟨hexit, hstate⟩ => hexit ▸ hstate ▸ h⟩

end Fragment

/-! ## Subtractions -/

theorem bitLength_mono {m n : Nat} (h : m ≤ n) : bitLength m ≤ bitLength n :=
  bitLength_le_iff.2 (Nat.lt_of_le_of_lt h (bitLength_le_iff.1 (Nat.le_refl _)))

theorem borrowsFor_le (deficit width : Nat) : borrowsFor deficit width ≤ deficit :=
  borrowsFor_le_of_le (Nat.le_mul_of_pos_left _ (Nat.two_pow_pos width))

/-- A register that is just wide enough for what is borrowed at most holds no more than there is to
make up for. -/
theorem two_pow_bitLength_borrowsFor_le {deficit width : Nat} (hpos : 0 < width) :
    2 ^ bitLength (borrowsFor deficit width) - 1 ≤ deficit := by
  rcases Nat.eq_zero_or_pos deficit with rfl | hdeficit
  · exact Nat.le_refl _
  · have hborrows : 2 * borrowsFor deficit width ≤ deficit + 1 := by
      have htwo : 2 ^ 1 ≤ 2 ^ width := Nat.pow_le_pow_right Nat.two_pos hpos
      have hhalf : (deficit - 1) / 2 ^ width ≤ (deficit - 1) / 2 :=
        Nat.div_le_div_left htwo Nat.two_pos
      rw [borrowsFor_pos hdeficit]
      omega
    -- the topmost bit of a number is no more than the number
    obtain ⟨k, hk⟩ : ∃ k, bitLength (borrowsFor deficit width) = k + 1 := by
      refine Nat.exists_eq_succ_of_ne_zero fun hzero => ?_
      have hlt := bitLength_le_iff.1 (Nat.le_of_eq hzero)
      rw [borrowsFor_pos hdeficit] at hlt
      simp at hlt
    have htop : 2 ^ k ≤ borrowsFor deficit width :=
      Nat.not_lt.1 fun hlt => by
        have := bitLength_le_iff.2 hlt
        omega
    rw [hk, Nat.pow_succ]
    omega

theorem Stage.sum_le_joined (digit : Stage → Nat) (stages : List Stage) :
    (stages.map digit).sum ≤ joined digit stages := by
  induction stages with
  | nil => exact Nat.le_refl _
  | cons stage rest ih =>
    rw [List.map_cons, List.sum_cons, joined_cons]
    exact Nat.add_le_add_left (ih.trans (Nat.le_mul_of_pos_left _ (Nat.two_pow_pos _))) _

namespace Subtraction

variable {plan : Subtraction} {pool later : Pool} {stage : Stage} {stages : List Stage}
  {borrow next : RegId} {code : Microcode} {codes : List Microcode} {scratch : List Term}
  {rs : RegisterFile} {isLast : Bool}

/-- A stage borrows no more bits than it takes away. -/
theorem stage_narrow (h : plan.stage isLast borrow stage pool = .ok (code, scratch, next) later)
    (hready : plan.Ready pool.registers (stage :: stages)) (hborrow : pool.registers.Knows borrow)
    (hbits : bitLength (stage.taken pool.registers.maxOf + pool.registers.maxOf borrow) <
      Word.modulus)
    (hpre : later.registers <+: rs) : code.Narrow rs := by
  have hpool := ((plan.keeps_stage _ _ _).of_ok h).toExtends.registers.trans hpre
  obtain ⟨targets, mid, -, rfl, -⟩ := stage_cases h
  have hmem : stage ∈ stage :: stages := List.mem_cons_self
  have hwidth : rs.widthOf stage.minuend.id = stage.minuend.width := by
    rw [RegisterFile.widthOf_mono hpool (hready.minuend stage hmem), hready.width_eq stage hmem]
  have hsame := Stage.borrowBits_mono hpool (hready.subtracted stage hmem) hborrow
  rw [Microcode.Narrow, hwidth]
  refine Nat.lt_of_le_of_lt (Nat.le_of_eq hsame) ?_
  rw [Stage.borrowBits_eq]
  exact Nat.lt_of_le_of_lt (bitLength_mono (borrowsFor_le _ _)) hbits

/-- The borrow of a stage before the last holds no more than the stage takes away. -/
theorem stage_borrow_le (h : plan.stage isLast borrow stage pool = .ok (code, scratch, next) later)
    (hlast : isLast = false) (hpos : 0 < stage.minuend.width) :
    later.registers.maxOf next ≤ stage.taken pool.registers.maxOf +
      pool.registers.maxOf borrow := by
  obtain ⟨targets, mid, -, -, ⟨hlast', -⟩ | ⟨-, halloc⟩⟩ := stage_cases h
  · rw [hlast] at hlast'
    cases hlast'
  · rw [RegisterFile.maxOf_eq, (Pool.allocate_ok halloc).widthOf_eq, Stage.borrowBits_eq]
    exact two_pow_bitLength_borrowsFor_le hpos

/-- No borrow of a chain is wider than what all stages together take away. -/
theorem stages_narrow (h : plan.stages borrow stages pool = .ok (codes, scratch, next) later)
    (hready : plan.Ready pool.registers stages) (hborrow : pool.registers.Knows borrow)
    (hone : plan.width = 0 → stages.length ≤ 1)
    (hbits : bitLength ((stages.map (Stage.taken pool.registers.maxOf)).sum +
      pool.registers.maxOf borrow) < Word.modulus)
    (hpre : later.registers <+: rs) : ∀ code ∈ codes, code.Narrow rs := by
  induction stages generalizing borrow pool codes scratch with
  | nil =>
    obtain ⟨heq, rfl⟩ := estate_pure_ok.1 h
    cases heq
    simp
  | cons stage rest ih =>
    obtain ⟨code, scratch₁, next₁, mid, codes₂, scratch₂, hstage, hrest, rfl, rfl⟩ :=
      stages_cons_ok h
    have hmid := ((plan.keeps_stages _ _).of_ok hrest).toExtends.registers
    rw [List.map_cons, List.sum_cons] at hbits
    have hfirst := stage_narrow hstage hready hborrow
      (Nat.lt_of_le_of_lt (bitLength_mono (by omega)) hbits) (hmid.trans hpre)
    cases rest with
    | nil =>
      obtain ⟨heq, rfl⟩ := estate_pure_ok.1 hrest
      cases heq
      exact List.forall_mem_singleton.2 hfirst
    | cons second rest =>
      have hpos : 0 < stage.minuend.width := Nat.pos_of_ne_zero fun hzero => by
        have hle := hone ((hready.zero_iff stage List.mem_cons_self).1 hzero)
        simp at hle
      have hgrows := ((plan.keeps_stage _ _ _).of_ok hstage).toExtends.registers
      have hnext : mid.registers.Knows next₁ := by
        obtain ⟨d, mid', -, -, hnext, -⟩ := stage_runs hstage hready hborrow
        exact hnext
      have htaken : (second :: rest).map (Stage.taken mid.registers.maxOf) =
          (second :: rest).map (Stage.taken pool.registers.maxOf) :=
        List.map_congr_left fun stage' hmem => Stage.taken_congr fun id hid =>
          (RegisterFile.Knows.of_declares (hready.tail.subtracted stage' hmem id hid)).maxOf_eq
            hgrows
      -- what the first stage borrows is taken away by it, so the total does not grow
      have hle := stage_borrow_le hstage rfl hpos
      refine List.forall_mem_cons.2 ⟨hfirst, ih hrest (hready.tail.mono hgrows) hnext ?_ ?_⟩
      · intro hzero
        have hle := hone hzero
        simp at hle
      · rw [htaken]
        exact Nat.lt_of_le_of_lt (bitLength_mono (by omega)) hbits

/-- Nothing that a plan emits is wider than a size if what is taken away is not. -/
theorem codes_narrow {targets subtrahends : List RegId} {minuend : RegId} {constant pivot : Nat}
    {limbs others : List Limb} {aligned : Bool} {early : Pool} {file : RegisterFile}
    (h : plan.codes aligned stages early = .ok codes later)
    (hplan : Planned early targets minuend subtrahends constant pivot limbs others plan
      aligned stages)
    (hs : early.Splits file) (hsub : file.Subtractable targets minuend subtrahends constant pivot)
    (hwidth : plan.width = file.widthOf minuend) (hsize : ∀ id, file.widthOf id < Word.modulus)
    (hbits : bitLength (stages.map (Stage.taken early.registers.maxOf)).sum < Word.modulus)
    (hpre : later.registers <+: rs) : ∀ code ∈ codes, code.Narrow rs := by
  obtain ⟨chain, scratch, next, mid, moved, later₁, hchain, hmoved, hnone, hsome⟩ :=
    codes_ok h
  have hready := hplan.ready hs hsub hwidth hsize
  obtain ⟨hgrows₁, hmid, hnext, -, -⟩ := hplan.lows_run hs hsub hwidth hsize hchain hmoved
  obtain ⟨-, -, -, hscratch, -⟩ := stages_run hchain hready fun hu => (nomatch hu)
  have hgrows := hmid.trans hgrows₁
  -- without bits there is a single stage
  have hone : plan.width = 0 → stages.length ≤ 1 := by
    intro hzero
    have hwidths := hplan.limbs_laid.map_width hs
    rw [← hwidth, hzero, limbWidths_of_le (Nat.zero_le _), ← hplan.map_minuend] at hwidths
    have hlength : stages.length = 1 := by simpa using congrArg List.length hwidths
    omega
  have hlow : ∀ {rs}, later₁.registers <+: rs →
      ∀ code ∈ chain ++ moved, code.Narrow rs := by
    intro rs hpre
    refine List.forall_mem_append.2
      ⟨stages_narrow hchain hready (fun hu => (nomatch hu)) hone hbits
      (hgrows₁.registers.trans hpre), ?_⟩
    cases aligned with
    | true =>
      obtain ⟨rfl, -⟩ := estate_pure_ok.1 hmoved
      simp
    | false =>
      have hplaced := hplan.low_laid.placed hs hsub.low.nodup hsub.low.size
      exact distribute_narrow hmoved (hplaced.mono hmid.registers) hscratch hpre
  by_cases habove : plan.above = []
  · obtain ⟨rfl, rfl⟩ := hnone habove
    exact hlow hpre
  · obtain ⟨-, raised, rfl, hraised⟩ := hsome habove
    have hplaced := hplan.high_laid.placed hs hsub.high.nodup hsub.high.size
    have hknown := hplan.knows_raised hs hsub hwidth hsize hgrows (hnext.mono hgrows₁.registers)
    have hlater := ((keeps_distribute _ _).of_ok hraised).toExtends.registers
    exact List.forall_mem_append.2 ⟨hlow (hlater.trans hpre),
      distribute_narrow hraised (hplaced.mono hgrows.registers) hknown hpre⟩

end Subtraction

/-- What an accepted subtraction takes away is of a width that passed a check. -/
theorem Scope.SubRule.bitLength_lt {scope : Scope} {targets subtrahends : List RegId}
    {minuend : RegId} {constant pivot : Nat}
    (h : scope.SubRule targets minuend subtrahends constant pivot)
    (hfield : scope.field.bandwidth < Word.modulus) :
    bitLength (constant + (subtrahends.map scope.registers.maxOf).sum) < Word.modulus := by
  refine Nat.lt_of_le_of_lt ((bitLength_mono ?_).trans h.field_le) hfield
  rw [Nat.shiftLeft_eq, Nat.mul_comm]
  exact (le_mul_borrowsFor _ _).trans (Nat.le_add_left _ _)

/-- Nothing that an accepted subtraction is lowered to is wider than a size. -/
theorem splitSubtraction_narrow {site : Site} {targets subtrahends : List RegId} {minuend : RegId}
    {constant pivot : Nat} {early later : Pool} {codes : List Microcode} {rs : RegisterFile}
    (h : splitSubtraction site targets (minuend :: subtrahends) constant early = .ok codes later)
    (hs : early.Splits site.registers) (hsize : ∀ id, site.registers.widthOf id < Word.modulus)
    (hsub : site.registers.Subtractable targets minuend subtrahends constant pivot)
    (hbits : bitLength (constant + (subtrahends.map site.registers.maxOf).sum) < Word.modulus)
    (hpre : later.registers <+: rs) : ∀ code ∈ codes, code.Narrow rs := by
  unfold splitSubtraction at h
  obtain ⟨⟨plan, aligned, stages⟩, mid, hask, h⟩ := estate_bind_ok.1 h
  obtain ⟨hplan, rfl⟩ := Pool.asking_ok.1 hask
  obtain ⟨hwidth, limbs, others, hplan⟩ := Pool.planSubtraction_ok hs hsub hsize hplan
  refine Subtraction.codes_narrow h hplan hs hsub hwidth hsize ?_ hpre
  -- full limbs make up full registers, so the stages take away no more than the subtrahends
  have hsum := hplan.sum_below_above hs (.refl early) hs.represents_full hsize
  have hjoined := hplan.joined_taken (s := .full site.registers) hs early.registers.maxOf
  rw [State.load_full, State.load_full] at hsum
  refine Nat.lt_of_le_of_lt (bitLength_mono ((Stage.sum_le_joined _ stages).trans ?_)) hbits
  rw [hjoined, ← hsum]
  omega

/-- **Borrow chains telescope**: what an accepted subtraction is lowered to runs from every state
that holds the limbs of a state, and leaves in the limbs of the targets what the subtraction stores
in the targets, whatever their widths are and whether or not they are sources too; all other limbs
are left alone. -/
theorem splitSubtraction_telescopes {scope : Scope} {targets sources : List RegId} {constant : Nat}
    {early later : Pool} {codes : List Microcode}
    (hvalid : (Microcode.sub targets sources constant).validate scope = .ok ())
    (hfield : scope.field = .unbounded) (hsize : ∀ id, scope.registers.widthOf id < Word.modulus)
    (hsized : (Microcode.sub targets sources constant).Sized scope.registers)
    (hs : early.Splits scope.registers)
    (h : splitSubtraction ⟨.sub targets sources constant, scope.registers⟩ targets sources
      constant early = .ok codes later)
    {pool : Pool} (hext : later.Extends pool) {s s' : State}
    (hregs : s.registers = scope.registers) (hfits : s.Fits) (hholds : pool.Holds s s') :
    ∃ s₁ s₁', (Microcode.sub targets sources constant).Does s (.skip 1) s₁ ∧
      Microcode.Runs codes s' s₁' ∧ pool.Holds s₁ s₁' ∧
      pool.Leaves scope.registers targets s' s₁' := by
  have hrun := Microcode.runnable_of_validate hvalid hsized
  obtain ⟨-, -, minuend, subtrahends, pivot, rfl, hrule⟩ := Microcode.validate_ok_iff.1 hvalid
  obtain ⟨minuend', subtrahends', pivot', heq, hsub⟩ := id hrun
  cases heq
  have hstores := splitSubtraction_stores h hs hsize hsub
  have hbits := hrule.bitLength_lt (by rw [hfield]; exact Nat.sub_lt Word.modulus_pos Nat.one_pos)
  have hnarrow := splitSubtraction_narrow h hs hsize hsub hbits hext.registers
  rw [← hregs] at hs hrun
  have hgrows := hstores.grows.trans hext
  obtain ⟨limbIds, s₁', hflat, hruns, htouch, hpacked⟩ :=
    hstores.runs hext (hholds.represents (hs.mono hgrows) hfits) hregs hnarrow
  rw [← hregs] at hpacked ⊢
  obtain ⟨s₁, hdoes, hrest⟩ := hholds.store hfits rfl hrun rfl hs hgrows hflat htouch hpacked
  exact ⟨s₁, s₁', hdoes, hruns, hrest⟩

/-- Registers of one to three limbs of two bits. -/
def borrowing : RegisterFile :=
  [⟨.temp, "x", 3, 0⟩, ⟨.temp, "w", 5, 0⟩, ⟨.temp, "y", 1, 0⟩, ⟨.temp, "z", 2, 0⟩,
    ⟨.temp, "b", 4, 0⟩]

/-- The subtrahend is wider than the minuend, the low targets are cut in other places, one of them
is subtracted too, and so is a constant that the minuend cannot hold. -/
theorem splitSubtraction_telescopes_borrowing : ∃ codes later s₁',
    splitSubtraction ⟨.sub [.reg 2, .reg 3, .reg 4] [.reg 0, .reg 1, .reg 3] 9, borrowing⟩
      [.reg 2, .reg 3, .reg 4] [.reg 0, .reg 1, .reg 3] 9 (.ofRegisters borrowing 2) =
        .ok codes later ∧
    Microcode.Runs codes
      ⟨later.registers, [1, 1, 0, 1, 1, 0, 2, 0, 0, 0, 0, 0, 0, 0], 0⟩ s₁' ∧
    [RegId.reg 1, .reg 2, .reg 3, .reg 4].map (later.read s₁') = [20, 0, 3, 4] := by
  obtain ⟨codes, later, hsplit, hholds⟩ : ∃ codes later,
      splitSubtraction ⟨.sub [.reg 2, .reg 3, .reg 4] [.reg 0, .reg 1, .reg 3] 9, borrowing⟩
        [.reg 2, .reg 3, .reg 4] [.reg 0, .reg 1, .reg 3] 9 (.ofRegisters borrowing 2) =
          .ok codes later ∧
      later.Holds ⟨borrowing, [5, 20, 0, 2, 0], 0⟩
        ⟨later.registers, [1, 1, 0, 1, 1, 0, 2, 0, 0, 0, 0, 0, 0, 0], 0⟩ := by
    refine ⟨_, _, rfl, rfl, .of_zip rfl (by decide), fun id => ?_⟩
    rcases id with _ | _ | _ | _ | _ | _ | i
    all_goals rfl
  have hvalid : (Microcode.sub [.reg 2, .reg 3, .reg 4] [.reg 0, .reg 1, .reg 3] 9).validate
      ⟨.unbounded, borrowing, [], 0⟩ = .ok () := rfl
  obtain ⟨s₁, s₁', hdoes, hruns, hholds, -⟩ := splitSubtraction_telescopes hvalid rfl
    (RegisterFile.widthOf_lt (by decide)) (by decide) (Pool.splits_ofRegisters _ _) hsplit
    (.refl later) rfl (.of_zip rfl (by decide)) hholds
  refine ⟨codes, later, s₁', hsplit, hruns, ?_⟩
  rw [funext hholds.read_eq, Microcode.Does.state_eq hdoes]
  decide +kernel

/-! ## Casts -/

theorem Microcode.Acceptable.narrow {scope : Scope} {code : Microcode} (h : code.Acceptable scope) :
    code.Narrow scope.registers := by
  obtain ⟨bandwidth, hvalid⟩ := h
  have hnarrow : code.Narrow (scope.withBandwidth bandwidth).registers := narrow_of_validate hvalid
  exact hnarrow

/-- What is not refused is lowered. -/
theorem Microcode.lower_succeeds {scope : Scope} {code : Microcode} {pool : Pool} (offset : Nat)
    (hvalid : code.validate scope = .ok ()) (hcomplete : code.Complete)
    (hsized : code.Sized scope.registers) (hs : pool.Splits scope.registers)
    (hsize : ∀ id, scope.registers.widthOf id < Word.modulus)
    (hnever : ∀ e, ¬ Site.Refuses ⟨code, scope.registers⟩ e) :
    ∃ fragments later, lower ⟨code, scope.registers⟩ offset pool = .ok fragments later := by
  have hrefuses : RaisesOnly (Site.Refuses ⟨code, scope.registers⟩)
      (lower ⟨code, scope.registers⟩ offset pool) :=
        lower_refuses hvalid hcomplete hsized hs hsize
  cases hlower : lower ⟨code, scope.registers⟩ offset pool with
  | ok fragments later => exact ⟨fragments, later, rfl⟩
  | error e later => exact absurd (hrefuses e later hlower) (hnever e)

theorem splitCast_narrow {site : Site} {targets : List RegId} {source : RegId} {width : Nat}
    {early later pool : Pool} {fragments : List Fragment} {rs : RegisterFile}
    (h : splitCast site targets source width early = .ok fragments later) (hs : early.Splits rs)
    (hsize : ∀ id, rs.widthOf id < Word.modulus) (ht : rs.Storable targets)
    (hinput : ∀ id ∈ targets, rs.isInput id = false) (hext : later.Extends pool) :
    ∀ fragment ∈ fragments, fragment.code.Narrow pool.registers := by
  -- no bus plays a part in this
  let scope : Scope := ⟨.unbounded, rs, [], 0⟩
  have hunfolds : (Microcode.cast targets source width).Unfolds scope 0 early later fragments :=
    Microcode.unfolds_cast h hs hsize ht hinput
  have hscope : scope.SplitTo pool { scope with registers := pool.registers } :=
    ⟨hs.mono (hunfolds.grows.trans hext), rfl, rfl, by simp [scope], by simp [scope]⟩
  exact fun fragment hmem => (hunfolds.acceptable hext hscope fragment hmem).narrow

/-- **Guarded limb copies implement a cast**: an accepted cast is lowered, and from every state that
holds the limbs of a state there is one way out of its fragments. It is the failure at the end of
the instruction or a failure on the spot exactly if the source needs more bits than the cast keeps;
else control falls through, the limbs of the targets make up what the cast stores, even where the
source is a target, and all other limbs are left alone. -/
theorem splitCast_guards {scope : Scope} {targets : List RegId} {source : RegId} {width : Nat}
    {early : Pool} (hvalid : (Microcode.cast targets source width).validate scope = .ok ())
    (hused : ∀ id ∈ source :: targets, id.isUsed = true)
    (hsize : ∀ id, scope.registers.widthOf id < Word.modulus)
    (hsized : (Microcode.cast targets source width).Sized scope.registers)
    (hs : early.Splits scope.registers) :
    ∃ fragments later, splitCast ⟨.cast targets source width,
      scope.registers⟩ targets source width
        early = .ok fragments later ∧
      ∀ (pool : Pool) (s s' : State), later.Extends pool →
        s.registers = scope.registers → s.Fits → pool.Holds s s' → ∃ exit s₁',
          (∀ exit' s₂', Fragment.Runs fragments s' exit' s₂' ↔ exit' = exit ∧
            s₂' = s₁') ∧
          (exit = .branch .trailer ∨ exit = .leave .fail ↔
            width < bitLength (s.load source)) ∧
          (bitLength (s.load source) ≤ width → exit = .fall ∧
            ∃ s₁, (Microcode.cast targets source width).Does s (.skip 1) s₁ ∧
              pool.Holds s₁ s₁' ∧ pool.Leaves scope.registers targets s' s₁') := by
  have hrun := Microcode.runnable_of_validate hvalid hsized
  obtain ⟨-, hwritable, -⟩ := Microcode.validate_ok_iff.1 hvalid
  obtain ⟨fragments, later, h⟩ : ∃ fragments later, splitCast ⟨.cast targets source width,
      scope.registers⟩ targets source width early = .ok fragments later :=
    Microcode.lower_succeeds 0 hvalid hused hsized hs hsize fun e hrefuses => by
      cases hrefuses with
      | overflow carries => exact carries
  obtain ⟨hgrows, hcast⟩ := splitCast_runs h hs hsize hrun.1 hrun.2
  refine ⟨fragments, later, h, fun pool s s' hext hregs hfits hholds => ?_⟩
  have hgrows := hgrows.trans hext
  have hnarrow := splitCast_narrow h hs hsize hrun.1 hwritable.notInput hext
  rw [← hregs] at hs hrun ⊢
  obtain ⟨hkept, hlost⟩ := hcast hext (hholds.represents (hs.mono hgrows) hfits) hregs hnarrow
  by_cases hfit : bitLength (s.load source) ≤ width
  · obtain ⟨limbIds, s₁', hflat, hruns, htouch, hpacked⟩ := hkept (bitLength_le_iff.1 hfit)
    have hnot : ¬ width < bitLength (s.load source) := Nat.not_lt.2 hfit
    have heffect : (Microcode.cast targets source width).effect s.registers s.load =
        ⟨targets, Digits.cut (s.registers.widths targets) (s.load source), .skip 1⟩ := by
      simp only [Microcode.effect, hnot, if_false]
      rfl
    obtain ⟨s₁, hdoes, hrest⟩ :=
      hholds.store hfits rfl hrun heffect hs hgrows hflat htouch hpacked
    exact ⟨.fall, s₁', fun _ _ => hruns.iff, by simp [hnot],
      fun _ => ⟨rfl, s₁, hdoes, hrest⟩⟩
  · have hwide := Nat.not_le.1 hfit
    obtain ⟨exit, s₁', hruns, hexit⟩ :=
      hlost (Nat.not_lt.1 fun hlt => hfit (bitLength_le_iff.2 hlt))
    exact ⟨exit, s₁', fun _ _ => hruns.iff, iff_of_true hexit hwide,
      fun hle => absurd hle hfit⟩

/-- A register of three limbs of two bits and one of a single bit. -/
def narrowing : RegisterFile := [⟨.temp, "x", 5, 0⟩, ⟨.temp, "y", 1, 0⟩]

/-- The cast keeps half of the middle limb, and spreads what it keeps over a bit and the source
itself; it fails if the other half is not empty. -/
theorem splitCast_guards_narrowing : ∃ fragments later s₁',
    splitCast ⟨.cast [.reg 1, .reg 0] (.reg 0) 3, narrowing⟩ [.reg 1, .reg 0] (.reg 0) 3
      (.ofRegisters narrowing 2) = .ok fragments later ∧
    Fragment.Runs fragments ⟨later.registers, [2, 1, 0, 1, 0, 0], 0⟩ .fall s₁' ∧
    [RegId.reg 1, .reg 0].map (later.read s₁') = [0, 3] ∧
    ∃ exit s₂', Fragment.Runs fragments
      ⟨later.registers, [2, 3, 0, 1, 0, 0], 0⟩ exit s₂' ∧
        (exit = .branch .trailer ∨ exit = .leave .fail) := by
  obtain ⟨fragments, later, hsplit, hkept, hlost⟩ : ∃ fragments later,
      splitCast ⟨.cast [.reg 1, .reg 0] (.reg 0) 3, narrowing⟩ [.reg 1, .reg 0] (.reg 0) 3
        (.ofRegisters narrowing 2) = .ok fragments later ∧
      later.Holds ⟨narrowing, [6, 1], 0⟩ ⟨later.registers, [2, 1, 0, 1, 0, 0], 0⟩ ∧
      later.Holds ⟨narrowing, [14, 1], 0⟩ ⟨later.registers, [2, 3, 0, 1, 0, 0], 0⟩ := by
    refine ⟨_, _, rfl, ⟨rfl, .of_zip rfl (by decide), fun id => ?_⟩,
      rfl, .of_zip rfl (by decide), fun id => ?_⟩
    all_goals rcases id with _ | _ | _ | i
    all_goals rfl
  have hvalid : (Microcode.cast [.reg 1, .reg 0] (.reg 0) 3).validate
      ⟨.unbounded, narrowing, [], 0⟩ = .ok () := rfl
  obtain ⟨fragments', later', hsplit', hruns⟩ := splitCast_guards hvalid (by decide)
    (RegisterFile.widthOf_lt (by decide)) (by decide) (Pool.splits_ofRegisters narrowing 2)
  cases hsplit.symm.trans hsplit'
  obtain ⟨exit, s₁', hway, -, hfall⟩ :=
    hruns later _ _ (.refl later) rfl (.of_zip rfl (by decide)) hkept
  obtain ⟨rfl, s₁, hdoes, hholds, -⟩ := hfall (by decide)
  obtain ⟨exit', s₂', hway', hexit, -⟩ :=
    hruns later _ _ (.refl later) rfl (.of_zip rfl (by decide)) hlost
  refine ⟨fragments, later, s₁', hsplit, (hway _ _).2 ⟨rfl, rfl⟩, ?_, exit', s₂',
    (hway' _ _).2 ⟨rfl, rfl⟩, hexit.2 (by decide)⟩
  rw [funext hholds.read_eq, Microcode.Does.state_eq hdoes]
  decide +kernel

/-! ## Comparisons -/

namespace Microcode

/-- The two numbers that a comparison compares. -/
def sides (s : State) : Microcode → Nat × Nat
  | skip left right constant _ => (s.load left, if right.isUsed then s.load right else constant)
  | skipIf left right constant _ => (s.packed left, if right = [] then constant else s.packed right)
  | _ => (0, 0)

variable {scope : Scope} {code : Microcode} {offset distance : Nat} {early later : Pool}
  {fragments : List Fragment}

theorem Compares.sides_eq {left : List RegId} {right : Option (List RegId)} {constant : Nat}
    (h : code.Compares left right constant distance) (s : State) :
    code.sides s = (s.packed left, (right.map s.packed).getD constant) := by
  cases h with
  | skip left right constant distance =>
    cases hright : right.isUsed with
    | true => simp [sides, hright, State.packed_singleton]
    | false => simp [sides, hright, State.packed_singleton]
  | skipIf left right constant distance =>
    by_cases hnil : right = []
    · simp [sides, hnil]
    · simp [sides, hnil]

theorem does_compare {s : State} (hskip : code.skipDistance = some distance)
    (hrun : code.Runnable s.registers) :
    code.Does s (.compare (code.sides s).1 (code.sides s).2 distance) s := by
  obtain ⟨left, right, constant, hcompares⟩ := exists_compares hskip
  rw [hcompares.sides_eq]
  exact @Compares.does _ _ _ _ _ _ hcompares hrun

/-- What a comparison is lowered to: fair comparisons that all go where it goes. -/
theorem lower_tests (h : lower ⟨code, scope.registers⟩ offset early = .ok fragments later)
    (hskip : code.skipDistance = some distance) (hvalid : code.validate scope = .ok ())
    (hsized : code.Sized scope.registers) (hs : early.Splits scope.registers)
    (hsize : ∀ id, scope.registers.widthOf id < Word.modulus) :
    early = later ∧ ∃ reads, ∀ fragment ∈ fragments,
      fragment.Tests early.registers reads (.offset (landing offset distance)) := by
  obtain ⟨left, right, constant, hcompares⟩ := exists_compares hskip
  rw [hcompares.lower_eq] at h
  obtain ⟨hleft, hright⟩ := hcompares.sides_lt (hcompares.runnable hsized) hsize
  have htests := splitComparison_tests h hs hleft hright
    (hcompares.constant_lt (comparable_of_validate hvalid hsized)) (List.Subset.refl _)
  exact ⟨htests.1, _, htests.2⟩

/-- The fragments of a comparison fall through or branch just as it does. -/
theorem lower_compares (h : lower ⟨code, scope.registers⟩ offset early = .ok fragments later)
    (hskip : code.skipDistance = some distance) (hvalid : code.validate scope = .ok ())
    (hsized : code.Sized scope.registers) (hs : early.Splits scope.registers)
    (hsize : ∀ id, scope.registers.widthOf id < Word.modulus) {pool : Pool} {s s' : State}
    (hext : later.Extends pool) (hrep : pool.Represents s s')
    (hregs : s.registers = scope.registers) :
    Fragment.Runs fragments s' (if (code.sides s).1 = (code.sides s).2 then .fall
      else .branch (.offset (landing offset distance))) s' := by
  obtain ⟨left, right, constant, hcompares⟩ := exists_compares hskip
  rw [hcompares.lower_eq] at h
  obtain ⟨hleft, hright⟩ := hcompares.sides_lt (hcompares.runnable hsized) hsize
  rw [hcompares.sides_eq]
  exact (splitComparison_runs h hs hleft hright
    (hcompares.constant_lt (comparable_of_validate hvalid hsized))).2 hext hrep hregs

/-- **Grouped comparisons decide packed inequality**: an accepted comparison is lowered without new
registers, to comparisons with sides of the same width that all go where it goes. From every state
that holds the limbs of a state, some of them branches exactly if the two sides differ; else control
falls through, and no register changes either way. -/
theorem lower_decides (hvalid : code.validate scope = .ok ())
    (hskip : code.skipDistance = some distance) (hcomplete : code.Complete)
    (hsize : ∀ id, scope.registers.widthOf id < Word.modulus)
    (hsized : code.Sized scope.registers) (hs : early.Splits scope.registers) :
    ∃ fragments, lower ⟨code, scope.registers⟩ offset early = .ok fragments early ∧
      (∀ fragment ∈ fragments, fragment.branch = some (.offset (landing offset distance)) ∧
        fragment.code.Even early.registers) ∧
      ∀ (pool : Pool) (s s' : State), early.Extends pool →
        s.registers = scope.registers → s.Fits → pool.Holds s s' →
          code.Does s (.compare (code.sides s).1 (code.sides s).2 distance) s ∧
          ∀ exit s₁', Fragment.Runs fragments s' exit s₁' ↔
            exit = (if (code.sides s).1 = (code.sides s).2 then .fall
              else .branch (.offset (landing offset distance))) ∧ s₁' = s' := by
  obtain ⟨fragments, later, h⟩ := lower_succeeds offset hvalid hcomplete hsized hs hsize
    fun e hrefuses => by
      cases hrefuses with
      | division => cases hskip
      | overflow carries =>
        cases code with
        | skip left right constant distance => exact carries
        | skipIf left right constant distance => exact carries
        | _ => cases hskip
  obtain ⟨rfl, reads, htests⟩ := lower_tests h hskip hvalid hsized hs hsize
  refine ⟨fragments, h, fun fragment hmem => ⟨(htests fragment hmem).branch_eq,
    (htests fragment hmem).fair.even⟩, fun pool s s' hext hregs hfits hholds =>
      ⟨?_, fun exit s₁' => ?_⟩⟩
  · refine does_compare hskip ?_
    rw [hregs]
    exact runnable_of_validate hvalid hsized
  · have hrep := hholds.represents (by rw [hregs]; exact hs.mono hext) hfits
    exact (lower_compares h hskip hvalid hsized hs hsize hext hrep hregs).iff

/-- Two lists of the same width that are cut in different places. -/
def uneven : RegisterFile :=
  [⟨.temp, "x", 5, 0⟩, ⟨.temp, "y", 2, 0⟩, ⟨.temp, "z", 3, 0⟩]

/-- One long register is compared with two short ones, first equal and then not. -/
theorem lower_decides_uneven : ∃ fragments,
    lower ⟨.skipIf [.reg 0] [.reg 1, .reg 2] 0 1, uneven⟩ 4 (.ofRegisters uneven 2) =
      .ok fragments (.ofRegisters uneven 2) ∧
    Fragment.Runs fragments ⟨(Pool.ofRegisters uneven 2).registers, [1, 2, 1, 1, 2, 1], 0⟩ .fall
      ⟨(Pool.ofRegisters uneven 2).registers, [1, 2, 1, 1, 2, 1], 0⟩ ∧
    Fragment.Runs fragments ⟨(Pool.ofRegisters uneven 2).registers, [1, 2, 1, 1, 2, 0], 0⟩
      (.branch (.offset 6)) ⟨(Pool.ofRegisters uneven 2).registers, [1, 2, 1, 1, 2, 0], 0⟩ := by
  have hvalid : (Microcode.skipIf [.reg 0] [.reg 1, .reg 2] 0 1).validate
      ⟨.unbounded, uneven, [], 0⟩ = .ok () := rfl
  have hequal : (Pool.ofRegisters uneven 2).Holds ⟨uneven, [25, 1, 6], 0⟩
      ⟨(Pool.ofRegisters uneven 2).registers, [1, 2, 1, 1, 2, 1], 0⟩ := by
    refine ⟨rfl, .of_zip rfl (by decide), fun id => ?_⟩
    rcases id with _ | _ | _ | _ | i
    all_goals rfl
  have hother : (Pool.ofRegisters uneven 2).Holds ⟨uneven, [25, 1, 2], 0⟩
      ⟨(Pool.ofRegisters uneven 2).registers, [1, 2, 1, 1, 2, 0], 0⟩ := by
    refine ⟨rfl, .of_zip rfl (by decide), fun id => ?_⟩
    rcases id with _ | _ | _ | _ | i
    all_goals rfl
  obtain ⟨fragments, h, -, hruns⟩ := lower_decides hvalid rfl (by decide)
    (RegisterFile.widthOf_lt (by decide)) (by decide) (Pool.splits_ofRegisters uneven 2)
  refine ⟨fragments, h, ?_, ?_⟩
  · exact ((hruns _ _ _ (.refl _) rfl (.of_zip rfl (by decide)) hequal).2 _ _).2 ⟨rfl, rfl⟩
  · exact ((hruns _ _ _ (.refl _) rfl (.of_zip rfl (by decide)) hother).2 _ _).2 ⟨rfl, rfl⟩

end Microcode

end LimbMachine
