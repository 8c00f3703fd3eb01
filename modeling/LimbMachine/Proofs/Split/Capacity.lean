import LimbMachine.Proofs.Split.Straight

/-!
# What does not fit is not lowered

A register that holds as much as it can is made up of limbs that do (`Pool.Splits.represents_full`),
so what can become of a microcode at most is what can become of its fragments. The checks on the
way, that the last carry and the last borrow find room, are therefore checks of the microcode
itself: where lowering succeeds a sum fits its targets, a borrow fits the targets above the pivot,
and the bits that a cast keeps fit its targets.
-/

namespace LimbMachine

/-! ## Full registers -/

/-- Every register holds as much as it can. -/
def State.full (rs : RegisterFile) : State :=
  { registers := rs, values := rs.map Register.maxValue }

@[simp] theorem State.registers_full (rs : RegisterFile) : (State.full rs).registers = rs := rfl

@[simp] theorem State.load_full (rs : RegisterFile) : (State.full rs).load = rs.maxOf := by
  funext id
  cases id with
  | unused => rfl
  | reg i => simp [State.load, State.full, RegisterFile.maxOf, RegisterFile.find?]

theorem State.fits_full (rs : RegisterFile) : (State.full rs).Fits := by
  refine ⟨by simp [full], fun id => ?_⟩
  rw [load_full, RegisterFile.maxOf_eq, registers_full]
  exact Nat.sub_lt (Nat.two_pow_pos _) Nat.one_pos

theorem Digits.join_full (ws : List Nat) :
    join ws (ws.map fun w => 2 ^ w - 1) = 2 ^ ws.sum - 1 := by
  induction ws with
  | nil => rfl
  | cons w ws ih =>
    rw [List.map_cons, join_cons, ih, List.sum_cons, Nat.pow_add, Nat.mul_sub_one]
    have hle : 2 ^ w * 1 ≤ 2 ^ w * 2 ^ ws.sum := Nat.mul_le_mul_left _ (Nat.two_pow_pos _)
    have := Nat.two_pow_pos w
    omega

theorem State.packed_full (rs : RegisterFile) (ids : List RegId) :
    (State.full rs).packed ids = 2 ^ (rs.widths ids).sum - 1 := by
  have hloads : ids.map rs.maxOf = (rs.widths ids).map fun w => 2 ^ w - 1 := by
    rw [RegisterFile.widths, List.map_map]
    exact List.map_congr_left fun id _ => rs.maxOf_eq id
  rw [packed, registers_full, load_full, hloads, Digits.join_full]

/-- Full limbs make up full registers. -/
theorem Pool.Splits.represents_full {pool : Pool} {rs : RegisterFile} (hs : pool.Splits rs) :
    pool.Represents (.full rs) (.full pool.registers) := by
  refine ⟨hs, State.fits_full _, rfl, State.fits_full _, rfl, fun id => ?_⟩
  rw [read, State.load_full, RegisterFile.maxOf_eq, State.packed_full]
  cases hid : pool.limbs? id with
  | none =>
    have hwidth : rs.widthOf id = 0 := by
      by_contra hne
      have hdecl := RegisterFile.declares_of_widthOf_pos (Nat.pos_of_ne_zero hne)
      rw [← hs.limbs?_isSome, hid] at hdecl
      cases hdecl
    rw [hwidth]
    rfl
  | some limbs =>
    rw [Option.getD_some, (hs.limbs_spec hid).1, sum_limbWidths hs.width_pos]

/-! ## Sums -/

/-- A sum that is lowered fits its targets. -/
theorem splitPolynomial_max_lt {site : Site} {targets : List RegId} {rhs : Polynomial}
    {early later : Pool} {codes : List Microcode} {rs : RegisterFile}
    (h : splitPolynomial site targets rhs early = .ok codes later) (hs : early.Splits rs)
    (hsize : ∀ id, rs.widthOf id < Word.modulus) (ht : (rs.widths targets).sum < Word.modulus)
    (hweighed : ∀ m ∈ rhs.terms, m.Weighed rs)
    (hsilent : targets = [] → rhs.maxValue rs = 0) :
    rhs.maxValue rs < 2 ^ (rs.widths targets).sum := by
  by_cases hnil : targets = []
  · rw [hsilent hnil]
    exact Nat.two_pow_pos _
  · obtain ⟨layout, terms, hlayout, hterms, h⟩ := splitPolynomial_ok h
    have hlaid := hs.laidOut ht hlayout
    have hlt := distribute_max_lt h hlaid.contiguous (hlaid.declares hs) (hlaid.ne_nil hs hnil)
      fun term hterm id hid => .of_declares (Pool.terms_declared hs hterms term hterm id hid)
    have hvalue := Pool.terms_value hs.represents_full hsize hweighed hterms
    rw [State.load_full, State.load_full] at hvalue
    rwa [hvalue, hlaid.sum_width hs] at hlt

/-! ## Subtractions -/

theorem borrowsFor_le_of_le {deficit width most : Nat} (h : deficit ≤ 2 ^ width * most) :
    borrowsFor deficit width ≤ most := by
  rcases Nat.eq_zero_or_pos deficit with rfl | hpos
  · exact Nat.zero_le _
  · rw [borrowsFor_pos hpos]
    have hlt : (deficit - 1) / 2 ^ width < most :=
      Nat.div_lt_of_lt_mul (by omega)
    omega

theorem Stage.borrowBits_eq (stage : Stage) (rs : RegisterFile) (borrow : RegId) :
    stage.borrowBits rs borrow =
      bitLength (borrowsFor (stage.taken rs.maxOf + rs.maxOf borrow) stage.minuend.width) := by
  have hlisted : (borrow.listed.map rs.maxOf).sum = rs.maxOf borrow := by
    rw [← State.load_full, State.sum_map_listed]
  rw [borrowBits, List.map_append, List.sum_append, hlisted, taken, Nat.add_assoc]

theorem Stage.most_le {stage : Stage} {rs : RegisterFile} {borrow : RegId} {bits : Nat}
    (h : stage.borrowBits rs borrow ≤ bits) :
    stage.taken rs.maxOf + rs.maxOf borrow ≤ 2 ^ stage.minuend.width * (2 ^ bits - 1) := by
  rw [borrowBits_eq, bitLength_le_iff] at h
  refine (le_mul_borrowsFor _ stage.minuend.width).trans (Nat.mul_le_mul_left _ ?_)
  omega

namespace Subtraction

variable {plan : Subtraction} {pool mid later : Pool} {stage : Stage} {stages : List Stage}
  {borrow next : RegId} {code : Microcode} {codes : List Microcode} {scratch : List Term}
  {isLast aligned : Bool}

/-- The borrow of a stage before the last finds room for the most that the stage can borrow. -/
theorem stage_most (h : plan.stage isLast borrow stage pool = .ok (code, scratch, next) later)
    (hlast : (isLast && plan.above.isEmpty) = false) :
    stage.taken pool.registers.maxOf + pool.registers.maxOf borrow ≤
      2 ^ stage.minuend.width * later.registers.maxOf next := by
  obtain ⟨targets, mid, -, -, ⟨hlast', -⟩ | ⟨-, halloc⟩⟩ := stage_cases h
  · rw [hlast] at hlast'
    cases hlast'
  · rw [later.registers.maxOf_eq, (Pool.allocate_ok halloc).widthOf_eq]
    exact Stage.most_le le_rfl

theorem stages_knows (h : plan.stages borrow stages pool = .ok (codes, scratch, next) later)
    (hborrow : pool.registers.Knows borrow) : later.registers.Knows next := by
  induction stages generalizing borrow pool codes scratch with
  | nil =>
    obtain ⟨heq, rfl⟩ := estate_pure_ok.1 h
    cases heq
    exact hborrow
  | cons stage rest ih =>
    obtain ⟨code, scratch₁, next₁, mid, codes₂, scratch₂, hstage, hrest, rfl, rfl⟩ :=
      stages_cons_ok h
    refine ih hrest ?_
    obtain ⟨targets, mid', -, -, ⟨-, rfl, -, -⟩ | ⟨-, halloc⟩⟩ := stage_cases hstage
    · exact hborrow.mono ((plan.keeps_stage _ _ _).of_ok hstage).toExtends.registers
    · exact (Pool.allocate_ok halloc).known

/-- What the stages can take away at most is borrowed by the last one. -/
theorem stages_most (h : plan.stages borrow stages pool = .ok (codes, scratch, next) later)
    (hne : stages ≠ [])
    (hsub : ∀ stage ∈ stages, ∀ id ∈ stage.subtracted, pool.registers.declares id = true) :
    Stage.joined (Stage.taken pool.registers.maxOf) stages + pool.registers.maxOf borrow ≤
      2 ^ (stages.map fun stage => stage.minuend.width).sum *
        (2 ^ plan.room later.registers next - 1) := by
  induction stages generalizing borrow pool codes scratch with
  | nil => exact absurd rfl hne
  | cons stage rest ih =>
    obtain ⟨code, scratch₁, next₁, mid, codes₂, scratch₂, hstage, hrest, rfl, rfl⟩ :=
      stages_cons_ok h
    rw [Stage.joined_cons, List.map_cons, List.sum_cons]
    cases rest with
    | nil =>
      obtain ⟨heq, rfl⟩ := estate_pure_ok.1 hrest
      cases heq
      have hbits : stage.borrowBits pool.registers borrow ≤ plan.room mid.registers next := by
        obtain ⟨targets, mid', -, -, ⟨hlast, -, -, hbits⟩ | ⟨hlast, halloc⟩⟩ :=
          stage_cases hstage
        · rw [room, if_pos (Bool.and_eq_true_iff.1 hlast).2]
          exact hbits.trans (Nat.mod_le _ _)
        · have habove : plan.above.isEmpty = false := hlast
          rw [room, if_neg (by simp [habove]), (Pool.allocate_ok halloc).widthOf_eq]
      simpa [Stage.joined] using Stage.most_le hbits
    | cons second rest =>
      have hfirst := stage_most hstage (by rfl)
      have hmid := ((plan.keeps_stage _ _ _).of_ok hstage).toExtends.registers
      have hothers : ∀ stage' ∈ second :: rest, ∀ id ∈ stage'.subtracted,
          pool.registers.declares id = true :=
        fun stage' hmem => hsub stage' (List.mem_cons_of_mem _ hmem)
      have hsecond := ih hrest (List.cons_ne_nil _ _) fun stage' hmem id hid =>
        RegisterFile.declares_mono hmid (hothers stage' hmem id hid)
      have htaken : Stage.joined (Stage.taken mid.registers.maxOf) (second :: rest) =
          Stage.joined (Stage.taken pool.registers.maxOf) (second :: rest) :=
        Stage.joined_congr fun stage' hmem => Stage.taken_congr fun id hid =>
          (RegisterFile.Knows.of_declares (hothers stage' hmem id hid)).maxOf_eq hmid
      rw [htaken] at hsecond
      calc stage.taken pool.registers.maxOf + 2 ^ stage.minuend.width *
              Stage.joined (Stage.taken pool.registers.maxOf) (second :: rest) +
            pool.registers.maxOf borrow
          = (stage.taken pool.registers.maxOf + pool.registers.maxOf borrow) +
              2 ^ stage.minuend.width *
                Stage.joined (Stage.taken pool.registers.maxOf) (second :: rest) := by ring
        _ ≤ 2 ^ stage.minuend.width * mid.registers.maxOf next₁ + 2 ^ stage.minuend.width *
              Stage.joined (Stage.taken pool.registers.maxOf) (second :: rest) :=
            Nat.add_le_add_right hfirst _
        _ = 2 ^ stage.minuend.width *
              (Stage.joined (Stage.taken pool.registers.maxOf) (second :: rest) +
                mid.registers.maxOf next₁) := by ring
        _ ≤ 2 ^ stage.minuend.width *
              (2 ^ ((second :: rest).map fun stage => stage.minuend.width).sum *
                (2 ^ plan.room later.registers next - 1)) := Nat.mul_le_mul_left _ hsecond
        _ = _ := by rw [Nat.pow_add, Nat.mul_assoc]

/-- Together with what is raised above the minuend it fits the high limbs. -/
theorem codes_most (h : plan.codes aligned stages pool = .ok codes later) (hne : stages ≠ [])
    (hsub : ∀ stage ∈ stages, ∀ id ∈ stage.subtracted, pool.registers.declares id = true)
    (hcont : Limb.Contiguous pool.registers 0 plan.high)
    (hhigh : ∀ id ∈ Limb.ids plan.high, pool.registers.declares id = true)
    (habove : ∀ id ∈ Term.reads plan.above, pool.registers.declares id = true) :
    Stage.joined (Stage.taken pool.registers.maxOf) stages +
        2 ^ (stages.map fun stage => stage.minuend.width).sum *
          (plan.above.map (Term.value pool.registers.maxOf)).sum ≤
      2 ^ (stages.map fun stage => stage.minuend.width).sum *
        (2 ^ (plan.high.map Limb.width).sum - 1) := by
  obtain ⟨chain, scratch, next, mid, moved, later₁, hchain, hmoved, -, hsome⟩ := codes_ok h
  have hmost := stages_most hchain hne hsub
  have hnone : pool.registers.maxOf .unused = 0 := rfl
  rw [hnone, Nat.add_zero] at hmost
  by_cases hempty : plan.above = []
  · rw [room, if_pos (by simpa using hempty)] at hmost
    simpa [hempty] using hmost
  · obtain ⟨hhigh_ne, raised, -, hraised⟩ := hsome hempty
    rw [room, if_neg (by simpa using hempty), ← RegisterFile.maxOf_eq] at hmost
    have hmid : mid.registers <+: later₁.registers := by
      cases aligned with
      | true =>
        obtain ⟨-, rfl⟩ := estate_pure_ok.1 hmoved
        exact List.prefix_rfl
      | false => exact ((keeps_distribute _ _).of_ok hmoved).toExtends.registers
    have hpre := ((plan.keeps_stages _ _).of_ok hchain).toExtends.registers.trans hmid
    have hnext := stages_knows hchain fun hu => absurd hu Bool.false_ne_true
    have hlt := raised_lt hraised hhigh_ne (hcont.mono hpre hhigh)
      (fun id hid => RegisterFile.declares_mono hpre (hhigh id hid))
      (fun id hid => RegisterFile.declares_mono hpre (habove id hid)) (hnext.mono hmid)
    have hvalues : plan.above.map (Term.value later₁.registers.maxOf) =
        plan.above.map (Term.value pool.registers.maxOf) := by
      refine List.map_congr_left fun term hterm => Term.value_congr fun id hid => ?_
      exact (RegisterFile.Knows.of_declares
        (habove id (List.mem_flatMap.2 ⟨term, hterm, hid⟩))).maxOf_eq hpre
    rw [hvalues, hnext.maxOf_eq hmid] at hlt
    refine (Nat.add_le_add_right hmost _).trans ?_
    rw [← Nat.mul_add]
    exact Nat.mul_le_mul_left _ (by omega)

end Subtraction

/-- Where a subtraction is lowered its borrow fits the targets above the pivot. -/
theorem splitSubtraction_borrow_le {site : Site} {targets sources : List RegId} {constant : Nat}
    {early later : Pool} {codes : List Microcode}
    (h : splitSubtraction site targets sources constant early = .ok codes later)
    (hs : early.Splits site.registers) (hsize : ∀ id, site.registers.widthOf id < Word.modulus)
    (hsized : (Microcode.sub targets sources constant).Sized site.registers) :
    ∃ minuend subtrahends pivot, sources = minuend :: subtrahends ∧
      subPivot targets site.registers (site.registers.widthOf minuend) = some pivot ∧
      bitLength (borrowsFor (constant + (subtrahends.map site.registers.maxOf).sum)
        (site.registers.widthOf minuend)) ≤ (site.registers.widths (targets.drop pivot)).sum := by
  obtain ⟨minuend, subtrahends, pivot, plan, aligned, stages, limbs, others, rfl, hpivot,
    hwidth, hne, hplan, hcodes⟩ := splitSubtraction_planned h hs hsize hsized
  refine ⟨minuend, subtrahends, pivot, rfl, hpivot, ?_⟩
  have hsub : ∀ stage ∈ stages, ∀ id ∈ stage.subtracted,
      early.registers.declares id = true := by
    intro stage hstage id hid
    obtain ⟨id', own, limb, hown, hlimb, rfl, -⟩ := hplan.subtracted_mem hs hsize hstage hid
    exact hown.declares hs _ (List.mem_map_of_mem hlimb)
  have hmost := Subtraction.codes_most hcodes hne hsub hplan.high_laid.contiguous
    (hplan.high_laid.declares hs) fun id hid =>
      RegisterFile.declares_of_widthOf_pos (hplan.reads_above hs id hid).1
  -- full limbs make up full registers, so the limbs take away as much as the subtrahends
  have hsum := hplan.sum_below_above hs (.refl early) hs.represents_full hsize
  have hstages : (stages.map fun stage => stage.minuend.width).sum = plan.width := by
    rw [hwidth, ← hplan.sum_widths hs, ← hplan.map_minuend, List.map_map]
    rfl
  rw [State.load_full, State.load_full] at hsum
  rw [hstages, hplan.joined_taken (s := .full site.registers) hs, Nat.add_assoc, hsum,
    hplan.high_laid.sum_width hs] at hmost
  have hborrow := borrowsFor_le_of_le hmost
  have hpos := Nat.two_pow_pos (site.registers.widths (targets.drop pivot)).sum
  rw [bitLength_le_iff, ← hwidth]
  omega

/-! ## Casts -/

theorem Limb.Contiguous.exists_last {rs : RegisterFile} {offset width : Nat} {limbs : List Limb}
    (h : Limb.Contiguous rs offset limbs) (hlt : offset < width)
    (hle : width ≤ offset + (limbs.map Limb.width).sum) :
    ∃ limb ∈ limbs, limb.offset < width ∧ width ≤ limb.offset + limb.width := by
  induction limbs generalizing offset with
  | nil =>
    simp only [List.map_nil, List.sum_nil] at hle
    omega
  | cons limb rest ih =>
    obtain ⟨hoffset, -, hrest⟩ := h
    rw [List.map_cons, List.sum_cons] at hle
    by_cases hhere : width ≤ offset + limb.width
    · exact ⟨limb, List.mem_cons_self, by omega, by omega⟩
    · obtain ⟨limb', hmem, hlimb⟩ := ih hrest (by omega) (by omega)
      exact ⟨limb', List.mem_cons_of_mem _ hmem, hlimb⟩

namespace Piece

variable {early later : Pool} {pieces : List Piece} {piece : Piece} {limbs targets : List Limb}
  {codes : List Microcode} {site : Site}

/-- A piece that is moved ends within the targets. -/
theorem move_end_le (h : Piece.move site pieces targets early = .ok codes later)
    (hkept : KeptOf early.registers limbs pieces)
    (hsize : ∀ piece ∈ pieces, piece.limb.width < Word.modulus)
    (hcont : Limb.Contiguous early.registers 0 targets)
    (hdecl : ∀ id ∈ Limb.ids targets, early.registers.declares id = true) (hne : targets ≠ [])
    (hpiece : piece ∈ pieces) :
    piece.limb.offset + piece.kept ≤ (targets.map Limb.width).sum := by
  rcases move_ok h with ⟨slots, hslots, -, -⟩ |
    ⟨casts, terms, mid, distributed, hgather, hdistribute, -⟩
  · -- it is no wider than its slot
    obtain ⟨slot, -, hslot⟩ := exists_of_forall₂ (mapM_slot?_eq_some hslots) hpiece
    obtain ⟨hmem, hoffset, hle⟩ := slot?_eq_some hslot
    have hbounds := (hcont.bounds (List.fst_mem_of_mem_zipIdx hmem)).2.1
    omega
  · obtain ⟨moves, -, hext, hmovable, hmoves, hterms⟩ := gather_ok hgather hkept hsize
    have hpre := hext.registers
    have hlt := distribute_max_lt hdistribute (hcont.mono hpre hdecl)
      (fun id hid => RegisterFile.declares_mono hpre (hdecl id hid)) hne
      (knows_gathered hterms
        (fun piece' hmem => RegisterFile.declares_mono hpre (hkept.declared piece' hmem))
          hmovable.target)
    -- alone it does not exceed the sum
    obtain ⟨term, hterm, id, rfl, hid⟩ := exists_of_forall₂ hterms hpiece
    have hroom : piece.kept ≤ mid.registers.widthOf id := by
      rcases hid with ⟨hwhole, rfl⟩ | hmove
      · rw [RegisterFile.widthOf_mono hpre (hkept.declared piece hpiece),
          ← hkept.width_eq piece hpiece]
        exact Nat.le_of_eq hwhole
      · exact hmovable.room _ hmove
    have hvalue : 2 ^ piece.limb.offset * (2 ^ piece.kept - 1) ≤
        (terms.map (Term.value mid.registers.maxOf)).sum := by
      refine le_trans ?_ (List.le_sum_of_mem (List.mem_map_of_mem hterm))
      have hmax : 2 ^ piece.kept - 1 ≤ mid.registers.maxOf id := by
        rw [RegisterFile.maxOf_eq]
        exact Nat.sub_le_sub_right (Nat.pow_le_pow_right (by omega) hroom) 1
      have hmul := Nat.mul_le_mul_left (2 ^ piece.limb.offset) hmax
      simpa [Term.value, Term.ofLimb, Monomial.eval] using hmul
    have hpos := hkept.pos piece hpiece
    have hhalf : 2 ^ (piece.limb.offset + (piece.kept - 1)) ≤
        2 ^ piece.limb.offset * (2 ^ piece.kept - 1) := by
      rw [Nat.pow_add]
      refine Nat.mul_le_mul_left _ ?_
      have hsucc : 2 ^ piece.kept = 2 * 2 ^ (piece.kept - 1) := by
        rw [← Nat.pow_succ', Nat.succ_eq_add_one, Nat.sub_add_cancel hpos]
      have := Nat.two_pow_pos (piece.kept - 1)
      omega
    have hexponent := (Nat.pow_lt_pow_iff_right (by omega)).1
      ((hhalf.trans hvalue).trans_lt hlt)
    omega

end Piece

/-- The bits that a cast keeps fit its targets. -/
theorem splitCast_width_le {site : Site} {targets : List RegId} {source : RegId} {width : Nat}
    {early later : Pool} {fragments : List Fragment} {rs : RegisterFile}
    (h : splitCast site targets source width early = .ok fragments later) (hs : early.Splits rs)
    (hsize : ∀ id, rs.widthOf id < Word.modulus) (ht : (rs.widths targets).sum < Word.modulus)
    (hsource : width ≤ rs.widthOf source) (hsilent : targets = [] → width = 0) :
    width ≤ (rs.widths targets).sum := by
  rcases Nat.eq_zero_or_pos width with hzero | hpos
  · omega
  · obtain ⟨limbs, layout, codes, hlimbs, hlayout, hmove, -⟩ := splitCast_ok h
    have hlimbs := hs.laidOut (by simpa using hsize source) hlimbs
    have hlaid := hs.laidOut ht hlayout
    have htotal := hlimbs.sum_width hs
    rw [RegisterFile.widths_cons, RegisterFile.widths_nil, List.sum_cons, List.sum_nil,
      Nat.add_zero]
      at htotal
    obtain ⟨limb, hlimb, hstart, hend⟩ := hlimbs.contiguous.exists_last hpos (by omega)
    -- the limb that holds the highest bit kept ends there
    have hpiece : (⟨limb, min (width - limb.offset) limb.width⟩ : Piece) ∈
        (Piece.ofLimbs width limbs).filter fun piece => !decide (piece.kept = 0) := by
      refine List.mem_filter.2 ⟨List.mem_map.2 ⟨limb, List.mem_filter.2 ⟨hlimb, ?_⟩, rfl⟩,
        ?_⟩
      · simp only [decide_eq_true_eq]
        omega
      · simp only [Bool.not_eq_true', decide_eq_false_iff_not]
        omega
    have hkept := Piece.keptOf_ofLimbs width hlimbs.contiguous (hlimbs.declares hs)
    have hle := Piece.move_end_le hmove hkept
      (fun piece hmem => hlimbs.width_lt hs (hsize source) (hkept.limb_mem piece hmem))
      hlaid.contiguous (hlaid.declares hs) (hlaid.ne_nil hs
        fun hnil => by have := hsilent hnil; omega)
      hpiece
    rw [hlaid.sum_width hs] at hle
    simp only at hle
    omega

/-! ## Comparisons -/

/-- A constant whose every part fits its limb fits the limbs. -/
theorem Limb.Contiguous.lt_of_cutAt_lt {rs : RegisterFile} {value : Nat} {limbs : List Limb}
    (h : Limb.Contiguous rs 0 limbs) (hne : limbs ≠ [])
    (hcut : ∀ pair ∈ limbs.zip (Limb.cutAt value limbs), pair.2 < 2 ^ pair.1.width) :
    value < 2 ^ (limbs.map Limb.width).sum := by
  have hfit : Digits.Fit (limbs.map Limb.width) (Limb.cutAt value limbs) := by
    refine List.forall₂_map_left_iff.2 (List.forall₂_iff_zip.2 ⟨?_, fun hpair =>
      hcut _ hpair⟩)
    exact (Limb.length_cutAt value limbs).symm
  have hlt := Digits.join_lt hfit
  rwa [h.join_cutAt hne, Nat.pow_zero, Nat.div_one] at hlt

section Comparison

variable {site : Site} {left : List RegId} {right : Option (List RegId)} {constant landing : Nat}
  {early later : Pool} {fragments : List Fragment} {rs : RegisterFile}

theorem splitComparison_branch
    (h : splitComparison site left right constant landing early = .ok fragments later) :
    ∀ fragment ∈ fragments, fragment.branch = some (.offset landing) ∧
      fragment.code.skipDistance.isSome = true := by
  intro fragment hmem
  obtain ⟨-, limbs, -, ⟨-, rfl⟩ | ⟨ids, others, -, -, -, rfl⟩⟩ := splitComparison_ok h
  · obtain ⟨pair, -, rfl⟩ := List.mem_map.1 hmem
    exact ⟨rfl, rfl⟩
  · obtain ⟨group, -, rfl⟩ := List.mem_map.1 hmem
    refine ⟨rfl, ?_⟩
    rcases Limb.compareGroup_cases group with ⟨l, r, -, hcode⟩ | hcode <;> rw [hcode] <;> rfl

/-- Operands that are compared limb by limb have the same width. -/
theorem splitComparison_sum_eq {ids : List RegId}
    (h : splitComparison site left (some ids) constant landing early = .ok fragments later)
    (hs : early.Splits rs) (hleft : (rs.widths left).sum < Word.modulus)
    (hright : (rs.widths ids).sum < Word.modulus) : (rs.widths left).sum = (rs.widths ids).sum := by
  obtain ⟨-, limbs, hlimbs, ⟨hnone, -⟩ | ⟨ids', others, hids, hothers, htotal, -⟩⟩ :=
    splitComparison_ok h
  · cases hnone
  · cases hids
    have hl := hs.laidOut hleft hlimbs
    have hr := hs.laidOut hright hothers
    rw [← hl.sum_width hs] at hleft ⊢
    rw [← hr.sum_width hs] at hright ⊢
    rwa [Limb.total, Word.sum_eq hleft, Limb.total, Word.sum_eq hright] at htotal

/-- A constant that is compared limb by limb, each part with a limb it fits, fits. -/
theorem splitComparison_constant_lt {scope : Scope}
    (h : splitComparison site left none constant landing early = .ok fragments later)
    (hs : early.Splits rs) (hleft : (rs.widths left).sum < Word.modulus) (hne : left ≠ [])
    (hpre : early.registers <+: scope.registers)
    (hrule : ∀ fragment ∈ fragments, fragment.code.Rule scope) :
    constant < 2 ^ (rs.widths left).sum := by
  obtain ⟨-, limbs, hlimbs, ⟨-, rfl⟩ | ⟨ids', others, hids, -⟩⟩ := splitComparison_ok h
  · have hl := hs.laidOut hleft hlimbs
    rw [← hl.sum_width hs]
    refine hl.contiguous.lt_of_cutAt_lt (hl.ne_nil hs hne) fun pair hpair => ?_
    have hmem := List.mem_map_of_mem (f := Limb.id) (List.of_mem_zip hpair).1
    have hconstant : pair.2 < 2 ^ scope.registers.widthOf pair.1.id :=
      (hrule _ (List.mem_map_of_mem hpair)).1
    rwa [RegisterFile.widthOf_mono hpre (hl.declares hs _ hmem),
      ← (hl.contiguous.bounds (List.of_mem_zip hpair).1).2.2] at hconstant
  · cases hids

end Comparison

end LimbMachine
