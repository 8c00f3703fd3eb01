import LimbMachine.Proofs.Split.Polynomials
import LimbMachine.Proofs.Split.Stages

/-!
# Subtractions over limbs

The plan of a subtraction cuts minuend, constant and low targets at the same places; what it
subtracts below the top of the minuend adds up to the digits of the stages, and the limbs above are
whole borrows. No stage writes a limb that a later stage reads: a low target lies at or above its
place in its own register, while later stages read limbs that start higher up. So the split
subtraction stores the difference and the borrow of the whole one (`splitSubtraction_runs`).
-/

namespace LimbMachine

/-! ## Limbs grouped by place -/

theorem sum_map_offset {limbs : List Limb} {offset : Nat} (c : Nat)
    (hdistinct : limbs.Pairwise fun a b => a.offset ≠ b.offset)
    (hfound : ∃ m ∈ limbs, m.offset = offset) :
    (limbs.map fun m => if offset = m.offset then c else 0).sum = c := by
  induction limbs with
  | nil => simp at hfound
  | cons m rest ih =>
    obtain ⟨hm, hrest⟩ := List.pairwise_cons.1 hdistinct
    rw [List.map_cons, List.sum_cons]
    by_cases hoffset : offset = m.offset
    · -- no other limb stands at this place
      have hzero : (rest.map fun m => if offset = m.offset then c else 0).sum = 0 := by
        refine List.sum_eq_zero fun n hn => ?_
        obtain ⟨m', hm', rfl⟩ := List.mem_map.1 hn
        exact if_neg fun heq => hm m' hm' (hoffset.symm.trans heq)
      rw [if_pos hoffset, hzero, Nat.add_zero]
    · rw [if_neg hoffset, Nat.zero_add]
      refine ih hrest ?_
      obtain ⟨m', hm', rfl⟩ := hfound
      rcases List.mem_cons.1 hm' with rfl | hm'
      · exact absurd rfl hoffset
      · exact ⟨m', hm', rfl⟩

theorem sum_map_groups {limbs below : List Limb} (load : RegId → Nat)
    (hdistinct : limbs.Pairwise fun a b => a.offset ≠ b.offset)
    (hfound : ∀ limb ∈ below, ∃ m ∈ limbs, m.offset = limb.offset) :
    (limbs.map fun m => 2 ^ m.offset *
      ((below.filter fun limb => limb.offset = m.offset).map fun limb => load limb.id).sum).sum =
        (below.map fun limb => 2 ^ limb.offset * load limb.id).sum := by
  induction below with
  | nil => simp
  | cons limb below ih =>
    have hstep : ∀ m : Limb, 2 ^ m.offset * (((limb :: below).filter fun limb =>
        limb.offset = m.offset).map fun limb => load limb.id).sum =
          (if limb.offset = m.offset then 2 ^ limb.offset * load limb.id else 0) + 2 ^ m.offset *
            ((below.filter fun limb => limb.offset = m.offset).map fun limb =>
              load limb.id).sum := by
      intro m
      by_cases heq : limb.offset = m.offset
      · rw [List.filter_cons_of_pos (by simpa using heq), List.map_cons, List.sum_cons, if_pos heq,
          heq, Nat.mul_add]
      · rw [List.filter_cons_of_neg (by simpa using heq), if_neg heq, Nat.zero_add]
    rw [List.map_congr_left fun m _ => hstep m, List.sum_map_add,
      sum_map_offset _ hdistinct (hfound limb List.mem_cons_self),
      ih fun l hl => hfound l (List.mem_cons_of_mem _ hl), List.map_cons, List.sum_cons]

namespace Pool

variable {pool : Pool} {rs : RegisterFile} {ids : List RegId} {others : List Limb} {s s' : State}

theorem limbsOfEach_nil : pool.limbsOfEach [] = .ok others ↔ others = [] := by
  simp [limbsOfEach, pure, Except.pure, bind, Except.bind, eq_comm]

theorem limbsOfEach_cons {id : RegId} : pool.limbsOfEach (id :: ids) = .ok others ↔ ∃ own rest,
    pool.layout [id] = .ok own ∧ pool.limbsOfEach ids = .ok rest ∧
      others = own.filter (fun limb => 0 < limb.width) ++ rest := by
  unfold limbsOfEach
  simp only [List.mapM_cons, except_bind_ok]
  constructor
  · rintro ⟨layouts, ⟨own, hown, rest, hrest, hlayouts⟩, hothers⟩
    cases hlayouts
    cases hothers
    exact ⟨own, _, hown, ⟨rest, hrest, rfl⟩, by simp⟩
  · rintro ⟨own, rest, hown, ⟨layouts, hlayouts, hrest⟩, rfl⟩
    cases hrest
    exact ⟨_, ⟨own, hown, layouts, hlayouts, rfl⟩, by simp [pure, Except.pure]⟩

theorem mem_limbsOfEach (h : pool.limbsOfEach ids = .ok others) :
    ∀ limb ∈ others, 0 < limb.width ∧ ∃ id own, pool.layout [id] = .ok own ∧
      limb ∈ own := by
  induction ids generalizing others with
  | nil =>
    rw [limbsOfEach_nil.1 h]
    simp
  | cons id ids ih =>
    obtain ⟨own, rest, hown, hrest, rfl⟩ := limbsOfEach_cons.1 h
    intro limb hlimb
    rcases List.mem_append.1 hlimb with hlimb | hlimb
    · obtain ⟨hmem, hpos⟩ := List.mem_filter.1 hlimb
      exact ⟨by simpa using hpos, id, own, hown, hmem⟩
    · exact ih hrest limb hlimb

/-- The limbs of some registers at their places add up to what the registers hold. -/
theorem limbsOfEach_value (hrep : pool.Represents s s')
    (hsize : ∀ id, s.registers.widthOf id < Word.modulus)
    (h : pool.limbsOfEach ids = .ok others) :
    (others.map fun limb => 2 ^ limb.offset * s'.load limb.id).sum = (ids.map s.load).sum := by
  induction ids generalizing others with
  | nil =>
    rw [limbsOfEach_nil.1 h]
    rfl
  | cons id ids ih =>
    obtain ⟨own, rest, hown, hrest, rfl⟩ := limbsOfEach_cons.1 h
    have hlaid := hrep.splits.laidOut (by simpa using hsize id) hown
    have hcont : Limb.Contiguous s'.registers 0 own := by
      rw [hrep.registers_eq]
      exact hlaid.contiguous
    rw [List.map_append, List.sum_append, ih hrest, hcont.sum_load_wide hrep.limbs_fit,
      hrep.packed_flatten hlaid.flatten_eq, State.packed_singleton, List.map_cons, List.sum_cons,
      Nat.pow_zero, Nat.one_mul]

theorem Extends.limbsOfEach_eq {later : Pool} (h : pool.Extends later) (hs : pool.Splits rs)
    (ids : List RegId) : later.limbsOfEach ids = pool.limbsOfEach ids := by
  have hfun : later.layout = pool.layout := funext fun ids => h.layout_eq hs ids
  unfold limbsOfEach
  rw [hfun]

end Pool

/-! ## Plans -/

/-- The limbs that start below bit `width`. -/
abbrev Limb.below (width : Nat) (limbs : List Limb) : List Limb :=
  limbs.filter fun limb => limb.offset < width

/-- The limbs that start at bit `width` or above. -/
abbrev Limb.above (width : Nat) (limbs : List Limb) : List Limb :=
  limbs.filter fun limb => !decide (limb.offset < width)

/-- What a plan consists of: `limbs` are those of the minuend, `others` those of the subtrahends. -/
structure Subtraction.Parts (pool : Pool) (targets : List RegId) (minuend : RegId)
    (subtrahends : List RegId) (constant pivot : Nat) (limbs others : List Limb)
    (plan : Subtraction) (aligned : Bool) (stages : List Stage) : Prop where
  limbs_eq : pool.layout [minuend] = .ok limbs
  low_eq : pool.layout (targets.take pivot) = .ok plan.low
  high_eq : pool.layout (targets.drop pivot) = .ok plan.high
  others_eq : pool.limbsOfEach subtrahends = .ok others
  found : ∀ limb ∈ Limb.below plan.width others, ∃ m ∈ limbs, m.offset = limb.offset
  above_eq : plan.above = (Limb.above plan.width others).map fun limb =>
    Term.ofLimb limb.id (limb.offset - plan.width)
  aligned_iff : aligned = true ↔ plan.low.map Limb.width = limbs.map Limb.width
  stages_eq : stages = (limbs.zip (Limb.cutAt constant limbs)).zipIdx.map fun ((m, chunk), i) =>
    { minuend := m
      low := if aligned then (plan.low[i]?).map Limb.id else none
      subtracted := ((Limb.below plan.width others).filter fun limb =>
        limb.offset = m.offset).map Limb.id
      constant := chunk }

/-- A plan whose limbs lie side by side. -/
structure Subtraction.Planned (pool : Pool) (targets : List RegId) (minuend : RegId)
    (subtrahends : List RegId) (constant pivot : Nat) (limbs others : List Limb)
    (plan : Subtraction) (aligned : Bool) (stages : List Stage) : Prop extends
    Subtraction.Parts pool targets minuend subtrahends constant pivot limbs others plan aligned
      stages where
  limbs_laid : pool.LaidOut [minuend] limbs
  low_laid : pool.LaidOut (targets.take pivot) plan.low
  high_laid : pool.LaidOut (targets.drop pivot) plan.high

namespace Pool

variable {pool : Pool} {site : Site} {targets subtrahends : List RegId} {minuend : RegId}
  {constant pivot : Nat} {plan : Subtraction} {aligned : Bool} {stages : List Stage}

theorem length_layout {rs : RegisterFile} {id : RegId} {limbs : List Limb} (hs : pool.Splits rs)
    (h : pool.layout [id] = .ok limbs) :
    limbs.length = (limbWidths pool.width (rs.widthOf id)).length := by
  obtain ⟨limbIds, hflat, rfl⟩ := except_map_ok.1 h
  rw [← (hs.limbs_spec (flatten_singleton.1 hflat)).1, RegisterFile.length_widths]
  have hids := congrArg List.length (pool.ids_place 0 limbIds)
  rwa [Limb.ids, List.length_map] at hids

/-- There is a minuend, and low targets that are as wide. -/
theorem planSubtraction_pivot {sources : List RegId}
    (h : pool.planSubtraction site targets sources constant = .ok (plan, aligned, stages)) :
    ∃ minuend subtrahends pivot, sources = minuend :: subtrahends ∧
      subPivot targets site.registers (site.registers.widthOf minuend) = some pivot := by
  cases sources with
  | nil => cases h
  | cons minuend subtrahends =>
    cases hpivot : subPivot targets site.registers (site.registers.widthOf minuend) with
    | none =>
      unfold planSubtraction at h
      simp only [hpivot] at h
      cases h
    | some pivot => exact ⟨minuend, subtrahends, pivot, rfl, hpivot⟩

theorem planSubtraction_parts (hs : pool.Splits site.registers)
    (hpivot : subPivot targets site.registers (site.registers.widthOf minuend) = some pivot)
    (h : pool.planSubtraction site targets (minuend :: subtrahends) constant =
      .ok (plan, aligned, stages)) :
    plan.width = site.registers.widthOf minuend ∧ ∃ limbs others,
      Subtraction.Parts pool targets minuend subtrahends constant pivot limbs others plan aligned
        stages := by
  unfold planSubtraction at h
  simp only [hpivot, List.partition_eq_filter_filter] at h
  obtain ⟨all, hall, h⟩ := except_bind_ok.1 h
  obtain ⟨low, hlow, h⟩ := except_bind_ok.1 h
  obtain ⟨high, hhigh, h⟩ := except_bind_ok.1 h
  obtain ⟨others, hothers, h⟩ := except_bind_ok.1 h
  -- a minuend without bits has one limb
  have htake : (if site.registers.widthOf minuend = 0 then all.take 1 else all) = all := by
    split
    · rename_i hzero
      have hlen := length_layout hs hall
      rw [hzero, limbWidths_of_le (Nat.zero_le _)] at hlen
      exact List.take_of_length_le (Nat.le_of_eq hlen)
    · rfl
  rw [htake] at h
  by_cases hfound : (others.filter fun limb => limb.offset < site.registers.widthOf minuend).any
      fun limb => all.all fun m => m.offset ≠ limb.offset
  · simp only [hfound, if_true] at h
    cases h
  · simp only [hfound] at h
    cases h
    refine ⟨rfl, all, others, hall, hlow, hhigh, hothers, ?_, rfl, beq_iff_eq, rfl⟩
    intro limb hlimb
    by_contra hnone
    refine hfound (List.any_eq_true.2 ⟨limb, hlimb, List.all_eq_true.2 fun m hm => ?_⟩)
    simp only [decide_eq_true_eq]
    exact fun heq => hnone ⟨m, hm, heq⟩

theorem planSubtraction_laid (hs : pool.Splits site.registers)
    (hpivot : subPivot targets site.registers (site.registers.widthOf minuend) = some pivot)
    (hsize : ∀ id, site.registers.widthOf id < Word.modulus)
    (hlow : (site.registers.widths (targets.take pivot)).sum < Word.modulus)
    (hhigh : (site.registers.widths (targets.drop pivot)).sum < Word.modulus)
    (h : pool.planSubtraction site targets (minuend :: subtrahends) constant =
      .ok (plan, aligned, stages)) :
    plan.width = site.registers.widthOf minuend ∧ ∃ limbs others,
      Subtraction.Planned pool targets minuend subtrahends constant pivot limbs others plan aligned
        stages := by
  obtain ⟨hwidth, limbs, others, hparts⟩ := planSubtraction_parts hs hpivot h
  exact ⟨hwidth, limbs, others, hparts, hs.laidOut (by simpa using hsize minuend) hparts.limbs_eq,
    hs.laidOut hlow hparts.low_eq, hs.laidOut hhigh hparts.high_eq⟩

theorem planSubtraction_ok (hs : pool.Splits site.registers)
    (hsub : site.registers.Subtractable targets minuend subtrahends constant pivot)
    (hsize : ∀ id, site.registers.widthOf id < Word.modulus)
    (h : pool.planSubtraction site targets (minuend :: subtrahends) constant =
      .ok (plan, aligned, stages)) :
    plan.width = site.registers.widthOf minuend ∧ ∃ limbs others,
      Subtraction.Planned pool targets minuend subtrahends constant pivot limbs others plan aligned
        stages :=
  planSubtraction_laid hs hsub.pivot_eq hsize hsub.low.size hsub.high.size h

end Pool

/-! ### The stages -/

namespace Subtraction.Parts

variable {pool : Pool} {targets subtrahends : List RegId} {minuend : RegId} {constant pivot : Nat}
  {limbs others : List Limb} {plan : Subtraction} {aligned : Bool} {stages : List Stage}
  (h : Parts pool targets minuend subtrahends constant pivot limbs others plan aligned stages)

include h

theorem map_minuend : stages.map Stage.minuend = limbs := by
  rw [h.stages_eq, List.map_map]
  have hproj : (limbs.zip (Limb.cutAt constant limbs)).zipIdx.map (Prod.fst ∘ Prod.fst) =
      limbs := by
    rw [← List.map_map, List.zipIdx_map_fst, List.map_fst_zip (by rw [Limb.length_cutAt])]
  exact hproj

theorem map_constant : stages.map Stage.constant = Limb.cutAt constant limbs := by
  rw [h.stages_eq, List.map_map]
  have hproj : (limbs.zip (Limb.cutAt constant limbs)).zipIdx.map (Prod.snd ∘ Prod.fst) =
      Limb.cutAt constant limbs := by
    rw [← List.map_map, List.zipIdx_map_fst, List.map_snd_zip (by rw [Limb.length_cutAt])]
  exact hproj

theorem minuend_mem {stage : Stage} (hstage : stage ∈ stages) : stage.minuend ∈ limbs := by
  rw [← h.map_minuend]
  exact List.mem_map_of_mem hstage

theorem subtracted_eq {stage : Stage} (hstage : stage ∈ stages) : stage.subtracted =
    ((Limb.below plan.width others).filter fun limb =>
      limb.offset = stage.minuend.offset).map Limb.id := by
  rw [h.stages_eq] at hstage
  obtain ⟨⟨⟨m, chunk⟩, i⟩, -, rfl⟩ := List.mem_map.1 hstage
  rfl

theorem low_eq_none (haligned : aligned = false) {stage : Stage} (hstage : stage ∈ stages) :
    stage.low = none := by
  rw [h.stages_eq] at hstage
  obtain ⟨⟨⟨m, chunk⟩, i⟩, -, rfl⟩ := List.mem_map.1 hstage
  exact if_neg (by rw [haligned]; exact Bool.false_ne_true)

theorem map_low (haligned : aligned = true) :
    stages.map Stage.low = plan.low.map fun limb => some limb.id := by
  have hlen : plan.low.length = limbs.length := by
    simpa using congrArg List.length (h.aligned_iff.1 haligned)
  rw [h.stages_eq, List.map_map]
  apply List.ext_getElem
  · simp [Limb.length_cutAt, hlen]
  · intro i hi hi'
    have hi'' : i < plan.low.length := by simpa using hi'
    simp [haligned, List.getElem?_eq_getElem hi'']

theorem filterMap_low (haligned : aligned = true) :
    stages.filterMap Stage.low = Limb.ids plan.low := by
  have hid : stages.filterMap Stage.low = (stages.map Stage.low).filterMap id := by
    rw [List.filterMap_map]
    rfl
  rw [hid, h.map_low haligned, List.filterMap_map]
  exact congrFun List.filterMap_eq_map plan.low

theorem filterMap_low_eq_nil (haligned : aligned = false) : stages.filterMap Stage.low = [] :=
  List.filterMap_eq_nil_iff.2 fun _ hstage => h.low_eq_none haligned hstage

/-- A stage's low target is the limb at its place, as wide as its limb of the minuend. -/
theorem low_getElem? {stage : Stage} {id : RegId} (hstage : stage ∈ stages)
    (hlow : stage.low = some id) :
    aligned = true ∧ ∃ (i : Nat) (limb : Limb), stages[i]? = some stage ∧
      plan.low[i]? = some limb ∧ limb.id = id ∧ limb.width = stage.minuend.width := by
  have haligned : aligned = true := by
    cases hal : aligned with
    | true => rfl
    | false =>
      rw [h.low_eq_none hal hstage] at hlow
      cases hlow
  obtain ⟨i, hi, rfl⟩ := List.getElem_of_mem hstage
  have hlows := congrArg (fun l => l[i]?) (h.map_low haligned)
  have hwidths := congrArg (fun l => l[i]?) (h.aligned_iff.1 haligned)
  rw [← h.map_minuend] at hwidths
  simp only [List.getElem?_map, List.getElem?_eq_getElem hi, Option.map_some, hlow] at hlows hwidths
  obtain ⟨limb, hlimb, hid⟩ := Option.map_eq_some_iff.1 hlows.symm
  rw [hlimb] at hwidths
  exact ⟨haligned, i, limb, List.getElem?_eq_getElem hi, hlimb, Option.some.inj hid,
    Option.some.inj hwidths⟩

end Subtraction.Parts

namespace Subtraction.Planned

variable {pool : Pool} {rs : RegisterFile} {targets subtrahends : List RegId} {minuend : RegId}
  {constant pivot : Nat} {limbs others : List Limb} {plan : Subtraction} {aligned : Bool}
  {stages : List Stage}

/-- A stage's low target lies where its limb of the minuend does. -/
theorem low_mem
    (h : Planned pool targets minuend subtrahends constant pivot limbs others plan aligned stages)
    {stage : Stage} {id : RegId} (hstage : stage ∈ stages) (hlow : stage.low = some id) :
    ∃ limb ∈ plan.low, limb.id = id ∧ limb.offset = stage.minuend.offset ∧
      limb.width = stage.minuend.width := by
  obtain ⟨haligned, i, limb, hi, hlimb, hid, hwidth⟩ := h.low_getElem? hstage hlow
  have hoffsets := congrArg (fun l => l[i]?) (h.low_laid.contiguous.map_offset_eq
    h.limbs_laid.contiguous (h.aligned_iff.1 haligned))
  rw [← h.map_minuend] at hoffsets
  simp only [List.getElem?_map, hi, hlimb, Option.map_some] at hoffsets
  exact ⟨limb, List.mem_of_getElem? hlimb, hid, Option.some.inj hoffsets, hwidth⟩

/-! ### The stages can be run in order -/

section Order

variable (h : Planned pool targets minuend subtrahends constant pivot limbs others plan
    aligned stages)
  (hs : pool.Splits rs) (hsub : rs.Subtractable targets minuend subtrahends constant pivot)
  (hwidth : plan.width = rs.widthOf minuend) (hsize : ∀ id, rs.widthOf id < Word.modulus)

include h hs

theorem limbs_ne_nil : limbs ≠ [] := by
  rintro rfl
  exact limbWidths_ne_nil hs.width_pos (h.limbs_laid.map_width hs).symm

theorem sum_widths : (limbs.map Limb.width).sum = rs.widthOf minuend := by
  rw [h.limbs_laid.sum_width hs]
  simp

theorem zero_iff {limb : Limb} (hmem : limb ∈ limbs) :
    limb.width = 0 ↔ rs.widthOf minuend = 0 := by
  constructor
  · intro hzero
    by_contra hpos
    have hin : limb.width ∈ limbWidths pool.width (rs.widthOf minuend) := by
      rw [← h.limbs_laid.map_width hs]
      exact List.mem_map_of_mem hmem
    have := limbWidths_pos hs.width_pos (Nat.pos_of_ne_zero hpos) _ hin
    omega
  · intro hzero
    have hle := (h.limbs_laid.contiguous.bounds hmem).2.1
    rw [h.sum_widths hs] at hle
    omega

/-- The limbs of the minuend lie one above the other. -/
theorem pairwise_offset : limbs.Pairwise fun limb later => limb.offset < later.offset := by
  by_cases hzero : rs.widthOf minuend = 0
  · have hlen := congrArg List.length (h.limbs_laid.map_width hs)
    rw [hzero, limbWidths_of_le (Nat.zero_le _), List.length_map] at hlen
    obtain ⟨limb, rfl⟩ := List.length_eq_one_iff.1 hlen
    exact List.pairwise_singleton _ _
  · have hwide := h.limbs_laid.contiguous.pairwise_wide
    rw [List.filter_eq_self.2] at hwide
    · exact hwide
    · intro limb hlimb
      have := (h.zero_iff hs hlimb).not.2 hzero
      simpa using Nat.pos_of_ne_zero this

include hsub

theorem apart : (Limb.ids plan.low).Disjoint (Limb.ids plan.high) := by
  have hflat := Pool.flatten_append h.low_laid.flatten_eq h.high_laid.flatten_eq
  rw [List.take_append_drop] at hflat
  exact List.disjoint_of_nodup_append (hs.nodup_flatten hflat hsub.nodup)

omit hsub

include hsize

theorem subtracted_mem {stage : Stage} (hstage : stage ∈ stages) {id : RegId}
    (hid : id ∈ stage.subtracted) : ∃ id' own limb, pool.LaidOut [id'] own ∧ limb ∈ own ∧
      limb.id = id ∧ limb.offset = stage.minuend.offset := by
  rw [h.subtracted_eq hstage] at hid
  obtain ⟨limb, hlimb, rfl⟩ := List.mem_map.1 hid
  obtain ⟨hbelow, hoffset⟩ := List.mem_filter.1 hlimb
  obtain ⟨-, id', own, hown, hmem⟩ :=
    Pool.mem_limbsOfEach h.others_eq limb (List.mem_filter.1 hbelow).1
  have hlaid := hs.laidOut (by simpa using hsize id') hown
  exact ⟨id', own, limb, hlaid, hmem, rfl, by simpa using hoffset⟩

include hsub hwidth

theorem ready : plan.Ready pool.registers stages where
  minuend := fun stage hstage =>
    h.limbs_laid.declares hs _ (List.mem_map_of_mem (h.minuend_mem hstage))
  width_eq := fun stage hstage =>
    (h.limbs_laid.contiguous.bounds (h.minuend_mem hstage)).2.2
  size := by
    intro stage hstage
    have hle := (h.limbs_laid.contiguous.bounds (h.minuend_mem hstage)).2.1
    rw [h.sum_widths hs] at hle
    have := hsize minuend
    omega
  zero_iff := by
    intro stage hstage
    rw [hwidth]
    exact h.zero_iff hs (h.minuend_mem hstage)
  subtracted := by
    intro stage hstage id hid
    obtain ⟨id', own, limb, hlaid, hmem, rfl, -⟩ := h.subtracted_mem hs hsize hstage hid
    exact hlaid.declares hs _ (List.mem_map_of_mem hmem)
  low := by
    intro stage hstage id hlow
    obtain ⟨limb, hmem, rfl, -, hw⟩ := h.low_mem hstage hlow
    refine ⟨h.low_laid.declares hs _ (List.mem_map_of_mem hmem), ?_⟩
    rw [← (h.low_laid.contiguous.bounds hmem).2.2, hw]
  nodup := by
    cases haligned : aligned with
    | true =>
      rw [h.filterMap_low haligned]
      exact h.low_laid.nodup hs hsub.low.nodup
    | false =>
      rw [h.filterMap_low_eq_nil haligned]
      exact .nil
  high := h.high_laid.placed hs hsub.high.nodup hsub.high.size
  apart := by
    intro id hid
    obtain ⟨stage, hstage, hlow⟩ := List.mem_filterMap.1 hid
    obtain ⟨limb, hmem, rfl, -⟩ := h.low_mem hstage hlow
    exact h.apart hs hsub (List.mem_map_of_mem hmem)
  ordered := by
    have hoffset : stages.Pairwise fun stage later =>
      stage.minuend.offset < later.minuend.offset := by
      rw [← List.pairwise_map (f := Stage.minuend)
        (R := fun limb later => limb.offset < later.offset), h.map_minuend]
      exact h.pairwise_offset hs
    refine hoffset.imp_of_mem fun {stage later} hstage hlater hlt id hlow => ?_
    obtain ⟨limb, hmem, rfl, hplace, -⟩ := h.low_mem hstage hlow
    constructor
    · intro heq
      have := h.low_laid.own_offset_le h.limbs_laid hs hmem (h.minuend_mem hlater) heq
      omega
    · intro hin
      obtain ⟨id', own, limb', hlaid, hmem', heq, hplace'⟩ :=
        h.subtracted_mem hs hsize hlater hin
      have := h.low_laid.own_offset_le hlaid hs hmem hmem' heq.symm
      omega

end Order

/-! ### What the stages add up to -/

section Values

variable {s s' : State} {later : Pool}
  (h : Planned pool targets minuend subtrahends constant pivot limbs others plan aligned stages)

include h

theorem joined_eq (digit : Limb → Nat) :
    Stage.joined (fun stage => digit stage.minuend) stages =
      Digits.join (limbs.map Limb.width) (limbs.map digit) := by
  rw [Stage.joined, ← h.map_minuend, List.map_map, List.map_map]
  rfl

theorem joined_constant (hne : limbs ≠ []) :
    Stage.joined Stage.constant stages = constant := by
  have hwidths : stages.map (fun stage => stage.minuend.width) = limbs.map Limb.width := by
    rw [← h.map_minuend, List.map_map]
    rfl
  rw [Stage.joined, hwidths, h.map_constant, h.limbs_laid.contiguous.join_cutAt hne, Nat.pow_zero,
    Nat.div_one]

variable (hs : pool.Splits s.registers)

include hs

theorem joined_taken (load : RegId → Nat) : Stage.joined (Stage.taken load) stages = constant +
    ((Limb.below plan.width others).map fun limb => 2 ^ limb.offset * load limb.id).sum := by
  have hdistinct : limbs.Pairwise fun a b => a.offset ≠ b.offset :=
    (h.pairwise_offset hs).imp fun hlt => Nat.ne_of_lt hlt
  have hsubtracted : Stage.joined (fun stage => (stage.subtracted.map load).sum) stages =
      Stage.joined (fun stage => (((Limb.below plan.width others).filter fun limb =>
        limb.offset = stage.minuend.offset).map fun limb => load limb.id).sum) stages := by
    apply Stage.joined_congr
    intro stage hstage
    rw [h.subtracted_eq hstage, List.map_map]
    rfl
  have hdigits := h.limbs_laid.contiguous.sum_digits fun m =>
    (((Limb.below plan.width others).filter fun limb =>
      limb.offset = m.offset).map fun limb => load limb.id).sum
  rw [Nat.pow_zero, Nat.one_mul, ← h.joined_eq, sum_map_groups load hdistinct h.found] at hdigits
  calc Stage.joined (Stage.taken load) stages
      = Stage.joined Stage.constant stages +
          Stage.joined (fun stage => (stage.subtracted.map load).sum) stages :=
        Stage.joined_add _ _ _
    _ = _ := by rw [h.joined_constant (h.limbs_ne_nil hs), hsubtracted, hdigits]

variable (hext : pool.Extends later) (hrep : later.Represents s s')

include hext hrep

theorem joined_minuend :
    Stage.joined (fun stage => s'.load stage.minuend.id) stages = s.load minuend := by
  have hlaid := h.limbs_laid.mono hs hext
  have hpacked := hrep.packed_flatten hlaid.flatten_eq
  rw [State.packed_singleton] at hpacked
  rw [h.joined_eq fun limb => s'.load limb.id, ← hpacked, State.packed, hrep.registers_eq,
    hlaid.contiguous.map_width, List.map_map]
  rfl

/-- The limbs below the top of the minuend and those above add up to what is subtracted. -/
theorem sum_below_above (hsize : ∀ id, s.registers.widthOf id < Word.modulus) :
    ((Limb.below plan.width others).map fun limb => 2 ^ limb.offset * s'.load limb.id).sum +
        2 ^ plan.width * (plan.above.map (Term.value s'.load)).sum =
      (subtrahends.map s.load).sum := by
  have habove : 2 ^ plan.width * (plan.above.map (Term.value s'.load)).sum =
      ((Limb.above plan.width others).map fun limb => 2 ^ limb.offset * s'.load limb.id).sum := by
    rw [h.above_eq, List.map_map, ← List.sum_map_mul_left]
    congr 1
    refine List.map_congr_left fun limb hlimb => ?_
    have hle : plan.width ≤ limb.offset := by simpa using (List.mem_filter.1 hlimb).2
    have hpow : 2 ^ limb.offset = 2 ^ plan.width * 2 ^ (limb.offset - plan.width) := by
      rw [← Nat.pow_add]
      congr 1
      omega
    simp [Term.value, Term.ofLimb, Monomial.eval, hpow, Nat.mul_assoc]
  have hothers := Pool.limbsOfEach_value hrep hsize ((hext.limbsOfEach_eq hs _).trans h.others_eq)
  rw [habove, ← hothers]
  have hsplit := List.sum_map_filter_add_sum_map_filter_not
    (fun limb : Limb => limb.offset < plan.width) (fun limb =>
      2 ^ limb.offset * s'.load limb.id) others
  simpa only [decide_not] using hsplit

end Values

/-! ### Running the plan -/

section Run

variable {mid later : Pool} {codes moved : List Microcode} {scratch : List Term} {next : RegId}
  (h : Planned pool targets minuend subtrahends constant pivot limbs others plan aligned stages)
  (hs : pool.Splits rs) (hsub : rs.Subtractable targets minuend subtrahends constant pivot)
  (hwidth : plan.width = rs.widthOf minuend) (hsize : ∀ id, rs.widthOf id < Word.modulus)

include h hs

theorem declares_tail (hgrows : pool.Extends mid) (hnext : mid.registers.Knows next) :
    ∀ id ∈ plan.tail true next, mid.registers.declares id = true := by
  intro id hid
  unfold tail at hid
  split at hid
  · exact RegisterFile.declares_mono hgrows.registers (h.high_laid.declares hs id hid)
  · obtain ⟨rfl, hu⟩ := RegId.mem_listed.1 hid
    exact hnext hu

include hsub

/-- What takes the borrow of the last stage is not among the low targets. -/
theorem disjoint_tail (hfresh : plan.above ≠ [] → pool.registers.declares next = false) :
    (plan.tail true next).Disjoint (Limb.ids plan.low) := by
  intro id hid hlow
  unfold tail at hid
  split at hid
  · exact h.apart hs hsub hlow hid
  · rename_i habove
    rw [Bool.true_and, List.isEmpty_iff] at habove
    have hdecl := h.low_laid.declares hs id hlow
    rw [(RegId.mem_listed.1 hid).1, hfresh habove] at hdecl
    cases hdecl

include hwidth hsize

/-- The chain, with the difference moved to low targets that are cut in other places. -/
theorem lows_run (hstages : plan.stages .unused stages pool = .ok (codes, scratch, next) mid)
    (hmoved : (if aligned then pure [] else distribute plan.site scratch plan.low : SplitM _) mid =
      .ok moved later) :
    mid.Extends later ∧ pool.Extends mid ∧ mid.registers.Knows next ∧
      (plan.above ≠ [] → pool.registers.declares next = false) ∧
      ∀ {s' : State}, later.registers <+: s'.registers → s'.Fits →
        (∀ code ∈ codes ++ moved, code.Narrow s'.registers) →
        ∃ s₁', Microcode.Runs (codes ++ moved) s' s₁' ∧
          s'.Touches pool.registers (Limb.ids plan.low ++ plan.stored true) s₁' ∧
          Balances (Stage.joined (fun stage => s'.load stage.minuend.id) stages)
            (Stage.joined (Stage.taken s'.load) stages) plan.width
              (s₁'.packed (Limb.ids plan.low))
            (s₁'.packed (plan.tail true next)) := by
  have hne : stages ≠ [] := by
    rintro rfl
    exact h.limbs_ne_nil hs (h.map_minuend.symm)
  obtain ⟨hgrows, hnext, hfresh, hvars, hruns⟩ :=
    stages_run hstages (h.ready hs hsub hwidth hsize) fun hu => (nomatch hu)
  have hfresh := fun habove => hfresh habove hne
  have hempty : stages.isEmpty = false := by simpa using hne
  have hsum : (stages.map fun stage => stage.minuend.width).sum = plan.width := by
    rw [hwidth, ← h.sum_widths hs, ← h.map_minuend, List.map_map]
    rfl
  cases haligned : aligned with
  | true =>
    rw [if_pos haligned] at hmoved
    obtain ⟨rfl, rfl⟩ := estate_pure_ok.1 hmoved
    refine ⟨.refl mid, hgrows, hnext, hfresh, ?_⟩
    intro s' hpre hfits hnarrow
    rw [List.append_nil] at hnarrow ⊢
    obtain ⟨s₁', D, hrun, htouch, hbal, hlow, -⟩ := hruns hpre hfits hnarrow
    have hsome : ∀ stage ∈ stages, stage.low ≠ none := by
      intro stage hstage hnone
      have hmem := List.mem_map_of_mem (f := Stage.low) hstage
      rw [h.map_low haligned, hnone] at hmem
      obtain ⟨limb, -, heq⟩ := List.mem_map.1 hmem
      cases heq
    have hlow := hlow hsome
    rw [h.filterMap_low haligned] at hlow htouch
    rw [hempty] at htouch hbal
    rw [hsum, ← hlow] at hbal
    exact ⟨s₁', hrun, htouch, hbal⟩
  | false =>
    rw [if_neg (by rw [haligned]; exact Bool.false_ne_true)] at hmoved
    have hplaced := h.low_laid.placed hs hsub.low.nodup hsub.low.size
    obtain ⟨hgrows', hdist⟩ := distribute_runs hmoved (hplaced.mono hgrows.registers) hvars
    refine ⟨hgrows', hgrows, hnext, hfresh, ?_⟩
    intro s' hpre hfits hnarrow
    obtain ⟨s₁', D, hrun, htouch, hbal, -, hscratch⟩ :=
      hruns (hgrows'.registers.trans hpre) hfits
      fun code hc => hnarrow code (List.mem_append_left _ hc)
    rw [h.filterMap_low_eq_nil haligned, hempty] at htouch
    rw [hempty, hsum] at hbal
    have hD : (scratch.map (Term.value s₁'.load)).sum = D := by
      have hcont := h.limbs_laid.contiguous
      rw [← h.map_minuend] at hcont
      rw [hscratch _ 0 hcont fun stage hstage => h.low_eq_none haligned hstage, Nat.pow_zero,
        Nat.one_mul]
    -- without low limbs the difference is zero
    have hnil : plan.low = [] → (scratch.map (Term.value s₁'.load)).sum = 0 := by
      intro hlow
      have hzero := h.low_laid.sum_width hs
      rw [hlow, hsub.width_eq, ← hwidth] at hzero
      have hlt := hbal.low_lt
      rw [← hzero] at hlt
      rw [hD]
      simpa using hlt
    obtain ⟨s₂', hrun', htouch', hpacked⟩ := hdist (s := s₁')
      (by rw [htouch.registers_eq]; exact hpre) htouch.fits
      (by rw [htouch.registers_eq]; exact fun code hc => hnarrow code (List.mem_append_right _ hc))
      hnil
    refine ⟨s₂', hrun.append hrun', (htouch.trans htouch' hgrows.registers).narrow ?_, ?_⟩
    · intro id hid _
      rw [List.nil_append, Bool.not_false] at hid
      exact List.mem_append.2 (List.mem_append.1 hid).symm
    · rw [hpacked, hD, htouch'.packed_eq (h.declares_tail hs hgrows hnext)
        (h.disjoint_tail hs hsub hfresh)]
      exact hbal

/-- Limbs above the top of the minuend are not among the low targets. -/
theorem vars_above {term : Term} (hterm : term ∈ plan.above) :
    ∀ id ∈ term.monomial.vars, pool.registers.declares id = true ∧
      id ∉ Limb.ids plan.low := by
  rw [h.above_eq] at hterm
  obtain ⟨limb, hlimb, rfl⟩ := List.mem_map.1 hterm
  obtain ⟨hmem, habove⟩ := List.mem_filter.1 hlimb
  obtain ⟨hpos, id', own, hlayout, hown⟩ := Pool.mem_limbsOfEach h.others_eq limb hmem
  have hlaid := hs.laidOut (by simpa using hsize id') hlayout
  intro id hid
  rw [List.mem_singleton.1 hid]
  refine ⟨hlaid.declares hs _ (List.mem_map_of_mem hown), ?_⟩
  intro hlow
  obtain ⟨limb', hlimb', heq⟩ := List.mem_map.1 hlow
  have hle := h.low_laid.own_offset_le hlaid hs hlimb' hown heq
  obtain ⟨-, hbound, hw'⟩ := h.low_laid.contiguous.bounds hlimb'
  rw [h.low_laid.sum_width hs, hsub.width_eq, ← hwidth, hw', heq,
    ← (hlaid.contiguous.bounds hown).2.2] at hbound
  have : ¬ limb.offset < plan.width := by simpa using habove
  omega

theorem knows_raised (hgrows : pool.Extends later) (hnext : later.registers.Knows next) :
    ∀ term ∈ plan.above ++ next.listed.map (Term.ofLimb · 0),
      ∀ id ∈ term.monomial.vars, later.registers.Knows id := by
  intro term hterm id hid
  rcases List.mem_append.1 hterm with hterm | hterm
  · exact .mono hgrows.registers (.of_declares (h.vars_above hs hsub hwidth hsize hterm id hid).1)
  · obtain ⟨id', hid', rfl⟩ := List.mem_map.1 hterm
    rw [List.mem_singleton.1 hid, (RegId.mem_listed.1 hid').1]
    exact hnext

end Run

end Subtraction.Planned

/-! ## The whole subtraction -/

namespace Subtraction

variable {targets subtrahends : List RegId} {minuend : RegId} {constant pivot : Nat}
  {limbs others : List Limb} {plan : Subtraction} {aligned : Bool} {stages : List Stage}
  {early later : Pool} {codes : List Microcode} {rs : RegisterFile}

theorem codes_ok (h : plan.codes aligned stages early = .ok codes later) :
    ∃ chain scratch next mid moved later₁,
      plan.stages .unused stages early = .ok (chain, scratch, next) mid ∧
      (if aligned then pure [] else distribute plan.site scratch plan.low : SplitM _) mid =
        .ok moved later₁ ∧
      (plan.above = [] → codes = chain ++ moved ∧ later₁ = later) ∧
      (plan.above ≠ [] → plan.high ≠ [] ∧ ∃ raised, codes = chain ++ moved ++ raised ∧
        distribute plan.site (plan.above ++ next.listed.map (Term.ofLimb · 0)) plan.high later₁ =
          .ok raised later) := by
  unfold Subtraction.codes at h
  obtain ⟨⟨chain, scratch, next⟩, mid, hstages, h⟩ := estate_bind_ok.1 h
  have hterms : (if next.isUsed then [Term.ofLimb next 0] else []) =
      next.listed.map (Term.ofLimb · 0) := by
    cases hu : next.isUsed with
    | true => simp [RegId.listed, hu]
    | false => simp [RegId.listed, hu]
  -- the two ways to go on meet again once the difference is where it belongs
  have hjoin : ((if aligned then pure [] else distribute plan.site scratch plan.low : SplitM _) >>=
      fun moved => do
        if plan.above.isEmpty then
          return chain ++ moved
        if plan.high.isEmpty then
          throw (.overflow plan.site)
        let borrowed := if next.isUsed then [Term.ofLimb next 0] else []
        let raised ← distribute plan.site (plan.above ++ borrowed) plan.high
        return chain ++ moved ++ raised) mid = .ok codes later := by
    cases aligned with
    | true => exact h
    | false => exact h
  obtain ⟨moved, later₁, hmoved, h⟩ := estate_bind_ok.1 hjoin
  refine ⟨chain, scratch, next, mid, moved, later₁, hstages, hmoved, ?_, ?_⟩
  · intro habove
    simp only [habove, List.isEmpty_nil, if_true] at h
    obtain ⟨rfl, rfl⟩ := estate_pure_ok.1 h
    exact ⟨rfl, rfl⟩
  · intro habove
    by_cases hhigh : plan.high = []
    · simp only [List.isEmpty_iff, habove, hhigh, if_true, if_false] at h
      cases h
    · simp only [List.isEmpty_iff, habove, hhigh, if_false] at h
      obtain ⟨raised, later₂, hraised, h⟩ := estate_bind_ok.1 h
      obtain ⟨rfl, rfl⟩ := estate_pure_ok.1 h
      rw [hterms] at hraised
      exact ⟨hhigh, raised, rfl, hraised⟩

/-- The microcodes of a plan leave the difference and the borrow of the whole subtraction. -/
theorem codes_run (h : plan.codes aligned stages early = .ok codes later)
    (hplan : Planned early targets minuend subtrahends constant pivot limbs others plan
      aligned stages)
    (hs : early.Splits rs) (hsub : rs.Subtractable targets minuend subtrahends constant pivot)
    (hwidth : plan.width = rs.widthOf minuend) (hsize : ∀ id, rs.widthOf id < Word.modulus) :
    early.Extends later ∧ ∀ {pool : Pool} {s s' : State}, later.Extends pool →
      pool.Represents s s' → s.registers = rs →
        (∀ code ∈ codes, code.Narrow pool.registers) →
      ∃ s₁', Microcode.Runs codes s' s₁' ∧
        s'.Touches early.registers (Limb.ids plan.low ++ Limb.ids plan.high) s₁' ∧
        Balances (s.load minuend) (constant + (subtrahends.map s.load).sum) plan.width
          (s₁'.packed (Limb.ids plan.low)) (s₁'.packed (Limb.ids plan.high)) := by
  obtain ⟨chain, scratch, next, mid, moved, later₁, hstages, hmoved, hnone, hsome⟩ :=
    codes_ok h
  obtain ⟨hgrows₁, hmid, hnext, hfresh, hruns⟩ :=
    hplan.lows_run hs hsub hwidth hsize hstages hmoved
  have hgrows := hmid.trans hgrows₁
  -- what the stages balance, in terms of the registers before splitting
  have hvalues : ∀ {pool : Pool} {s s' : State}, early.Extends pool → pool.Represents s s' →
      s.registers = rs →
      Stage.joined (fun stage => s'.load stage.minuend.id) stages = s.load minuend ∧
      Stage.joined (Stage.taken s'.load) stages +
          2 ^ plan.width * (plan.above.map (Term.value s'.load)).sum =
        constant + (subtrahends.map s.load).sum := by
    intro pool s s' hext hrep hrs
    subst hrs
    refine ⟨hplan.joined_minuend hs hext hrep, ?_⟩
    rw [hplan.joined_taken hs, Nat.add_assoc, hplan.sum_below_above hs hext hrep hsize]
  by_cases habove : plan.above = []
  · obtain ⟨rfl, rfl⟩ := hnone habove
    refine ⟨hgrows, ?_⟩
    intro pool s s' hext hrep hrs hnarrow
    obtain ⟨s₁', hrun, htouch, hbal⟩ := hruns
      (by rw [hrep.registers_eq]; exact hext.registers) hrep.limbs_fit
      (by rw [hrep.registers_eq]; exact hnarrow)
    obtain ⟨hminuend, htaken⟩ := hvalues (hgrows.trans hext) hrep hrs
    rw [habove, List.map_nil, List.sum_nil, Nat.mul_zero, Nat.add_zero] at htaken
    rw [hminuend, htaken] at hbal
    refine ⟨s₁', hrun, ?_, ?_⟩
    · simpa [stored, habove] using htouch
    · simpa [tail, habove] using hbal
  · obtain ⟨hhigh, raised, rfl, hraised⟩ := hsome habove
    have hknown := hplan.knows_raised hs hsub hwidth hsize hgrows (hnext.mono hgrows₁.registers)
    have hplaced := hplan.high_laid.placed hs hsub.high.nodup hsub.high.size
    obtain ⟨hgrows₂, hdist⟩ := distribute_runs hraised (hplaced.mono hgrows.registers) hknown
    refine ⟨hgrows.trans hgrows₂, ?_⟩
    intro pool s s' hext hrep hrs hnarrow
    rw [← hrep.registers_eq] at hnarrow
    have hpre : later.registers <+: s'.registers := by
      rw [hrep.registers_eq]
      exact hext.registers
    obtain ⟨s₁', hrun, htouch, hbal⟩ := hruns (hgrows₂.registers.trans hpre) hrep.limbs_fit
      fun code hc => hnarrow code (List.mem_append_left _ hc)
    obtain ⟨s₂', hrun', htouch', hpacked⟩ := hdist (s := s₁')
      (by rw [htouch.registers_eq]; exact hpre) htouch.fits
      (by rw [htouch.registers_eq]; exact fun code hc => hnarrow code (List.mem_append_right _ hc))
      fun hnil => absurd hnil hhigh
    have hisEmpty : plan.above.isEmpty = false := by simpa using habove
    have htail : plan.tail true next = next.listed := by simp [tail, hisEmpty]
    have hstored : plan.stored true = [] := by simp [stored, hisEmpty]
    rw [hstored, List.append_nil] at htouch
    refine ⟨s₂', hrun.append hrun', htouch.trans htouch' hgrows.registers, ?_⟩
    -- the limbs above still hold what they held before the chain
    have hkept : plan.above.map (Term.value s₁'.load) = plan.above.map (Term.value s'.load) := by
      refine List.map_congr_left fun term hterm => Term.value_congr fun id hid => ?_
      obtain ⟨hdecl, hnot⟩ := hplan.vars_above hs hsub hwidth hsize hterm id hid
      exact htouch.frame id hdecl hnot
    have hborrow : ((next.listed.map (Term.ofLimb · 0)).map (Term.value s₁'.load)).sum =
        s₁'.packed (plan.tail true next) := by
      rw [htail, State.packed_listed, ← State.sum_map_listed, List.map_map]
      simp [Term.value, Term.ofLimb, Monomial.eval, Function.comp_def]
    have hlow : s₂'.packed (Limb.ids plan.low) = s₁'.packed (Limb.ids plan.low) :=
      htouch'.packed_eq (fun id hid => RegisterFile.declares_mono hgrows.registers
        (hplan.low_laid.declares hs id hid)) (hplan.apart hs hsub)
    obtain ⟨hminuend, htaken⟩ := hvalues ((hgrows.trans hgrows₂).trans hext) hrep hrs
    rw [hpacked, List.map_append, List.sum_append, hkept, hborrow, hlow, ← htaken]
    rw [hminuend] at hbal
    refine ⟨hbal.low_lt, ?_⟩
    rw [← Nat.add_assoc, hbal.sum_eq]
    ring

end Subtraction

/-- Splitting a subtraction stores its difference and its borrow across the limbs of the targets. -/
theorem splitSubtraction_stores {site : Site} {targets subtrahends : List RegId} {minuend : RegId}
    {constant pivot : Nat} {early later : Pool} {codes : List Microcode}
    (h : splitSubtraction site targets (minuend :: subtrahends) constant early = .ok codes later)
    (hs : early.Splits site.registers) (hsize : ∀ id, site.registers.widthOf id < Word.modulus)
    (hsub : site.registers.Subtractable targets minuend subtrahends constant pivot) :
    Pool.Stores site.registers early later codes targets fun load =>
      balance (load minuend) (constant + (subtrahends.map load).sum)
        (site.registers.widthOf minuend) := by
  unfold splitSubtraction at h
  obtain ⟨⟨plan, aligned, stages⟩, mid, hask, h⟩ := estate_bind_ok.1 h
  obtain ⟨hplan, rfl⟩ := Pool.asking_ok.1 hask
  obtain ⟨hwidth, limbs, others, hplan⟩ := Pool.planSubtraction_ok hs hsub hsize hplan
  obtain ⟨hgrows, hruns⟩ := Subtraction.codes_run h hplan hs hsub hwidth hsize
  refine ⟨hgrows, ?_⟩
  intro pool s s' hext hrep hrs hnarrow
  obtain ⟨s₁', hrun, htouch, hbal⟩ := hruns hext hrep hrs hnarrow
  have hgrows' := hgrows.trans hext
  have hflat := Pool.flatten_append hplan.low_laid.flatten_eq hplan.high_laid.flatten_eq
  rw [List.take_append_drop, ← hgrows'.flatten_eq] at hflat
  have hlow : (s₁'.registers.widths (Limb.ids plan.low)).sum = plan.width := by
    rw [htouch.registers_eq, hrep.registers_eq, hwidth, ← hsub.width_eq]
    exact (hs.mono hgrows').sum_widths_flatten (hplan.low_laid.mono hs hgrows').flatten_eq
  refine ⟨_, s₁', hflat, hrun, htouch, ?_⟩
  have hlt := hrep.fits.load_lt minuend
  rw [hrs, ← hwidth] at hlt
  rw [State.packed_append, hlow, ← hwidth]
  exact (hbal.balance_eq hlt).symm

end LimbMachine
