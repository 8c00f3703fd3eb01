import LimbMachine.Proofs.Split.Unfolding
import Mathlib.Data.List.Perm.Subperm

/-!
# What lowered code reads and stores, sound or not

Nothing is assumed here of the microcode that is lowered: it may write a register twice or an input,
or compute what does not fit its targets. Whatever comes out runs through from the first to the
last, stores each limb of a target as often as the target stands in the list, and reads every limb
that can make a difference (`Microcode.Straight`). A fault of this kind is therefore still there
once it is lowered.
-/

namespace LimbMachine

open Microcode (allWrites)

namespace Microcode

variable {reads reads' ids ids' : List RegId} {code : Microcode} {codes codes' : List Microcode}

abbrev allReads (codes : List Microcode) : List RegId := codes.flatMap Microcode.reads

/-- The microcodes run through from the first to the last, read each register of `reads`, and store
each of `ids` as often as it stands there. -/
structure Straight (reads ids : List RegId) (codes : List Microcode) : Prop where
  through : ∀ code ∈ codes, code.isTerminal = false
  read : ∀ id ∈ reads, id.isUsed = true → id ∈ allReads codes
  stored : ids.Subperm (allWrites codes)

namespace Straight

theorem nil : Straight [] [] [] :=
  ⟨by simp, by simp, List.Subperm.refl _⟩

theorem mono (h : Straight reads ids codes) (hreads : reads' ⊆ reads) (hids : ids'.Subperm ids) :
    Straight reads' ids' codes :=
  ⟨h.through, fun id hid => h.read id (hreads hid), hids.trans h.stored⟩

theorem append (h : Straight reads ids codes) (h' : Straight reads' ids' codes') :
    Straight (reads ++ reads') (ids ++ ids') (codes ++ codes') := by
  refine ⟨List.forall_mem_append.2 ⟨h.through, h'.through⟩, fun id hid hu => ?_, ?_⟩
  · rw [allReads, List.flatMap_append, List.mem_append]
    rcases List.mem_append.1 hid with hid | hid
    · exact .inl (h.read id hid hu)
    · exact .inr (h'.read id hid hu)
  · rw [allWrites, List.flatMap_append]
    exact h.stored.append h'.stored

theorem single (hterm : code.isTerminal = false) (hreads : reads ⊆ code.operands)
    (hids : ids.Sublist code.targets) (hused : ∀ id ∈ ids, id.isUsed = true) :
    Straight reads ids [code] := by
  refine ⟨by simpa using hterm, fun id hid hu => ?_, ?_⟩
  · rw [allReads, List.flatMap_singleton]
    exact List.mem_filter.2 ⟨hreads hid, hu⟩
  · rw [allWrites, List.flatMap_singleton, ← List.filter_eq_self.2 hused]
    exact (hids.filter _).subperm

theorem cons (h : Straight reads ids [code]) (h' : Straight reads' ids' codes) :
    Straight (reads ++ reads') (ids ++ ids') (code :: codes) :=
  h.append h'

/-- What is stored nowhere twice stands nowhere twice. -/
theorem nodup (h : Straight reads ids codes) (hnd : (allWrites codes).Nodup) : ids.Nodup := by
  obtain ⟨kept, hperm, hsub⟩ := h.stored
  exact hperm.nodup_iff.1 (hnd.sublist hsub)

end Straight

end Microcode

open Microcode (Straight)

/-! ## Chains of equations -/

namespace LimbEquation

variable {pool later : Pool} {codes : List Microcode} {eqs : List LimbEquation} {carry : RegId}
  {site : Site} {layout : List Limb}

theorem chain_straight (h : chain site carry eqs pool = .ok codes later)
    (hused : ∀ id ∈ written eqs, id.isUsed = true) :
    Straight (vars eqs) (written eqs) codes := by
  induction eqs generalizing carry pool codes with
  | nil =>
    obtain ⟨rfl, rfl⟩ := estate_pure_ok.1 h
    exact .nil
  | cons eq rest ih =>
    have hvars : vars (eq :: rest) = eq.terms.flatMap Monomial.vars ++ vars rest := rfl
    have hrhs : eq.terms.flatMap Monomial.vars ⊆ (eq.rhs carry).registers :=
      fun id hid => registers_rhs.2 (.inl hid)
    rcases chain_cons_ok h with ⟨hempty, -, rfl, -⟩ | ⟨-, next, mid, codes', -, hchain, rfl⟩
    · -- the last equation reads all that is left
      have hrest : vars rest = [] := by
        refine List.flatMap_eq_nil_iff.2 fun eq' heq' => ?_
        rw [hempty eq' heq']
        rfl
      have hids : Limb.ids (eq.limb :: rest.map limb) = written (eq :: rest) := by
        simp [written, Function.comp_def]
      rw [hvars, hrest, List.append_nil, hids]
      exact .single rfl hrhs (List.Sublist.refl _) hused
    · have hfirst : Straight (eq.terms.flatMap Monomial.vars) [eq.limb.id]
          [.assign (eq.limb.id :: next.listed) (eq.rhs carry)] :=
        .single rfl hrhs (by simp [Microcode.targets]) fun id hid =>
          hused id (List.mem_singleton.1 hid ▸ List.mem_cons_self)
      exact hfirst.cons (ih hchain fun id hid => hused id (List.mem_cons_of_mem _ hid))

theorem saves_straight (copies : List (RegId × RegId)) :
    Straight (copies.map Prod.fst) [] (copies.map save) := by
  induction copies with
  | nil => exact .nil
  | cons pair copies ih =>
    have hsave : Straight [pair.1] [] [save pair] :=
      .single rfl (by simp [Microcode.operands,
        Polynomial.registers_var]) (List.nil_sublist _) (by simp)
    exact hsave.cons ih

/-- A term that is not zero enters some equation with all its variables. -/
theorem term_subset_vars {rs : RegisterFile} {terms : List Term} {term : Term} (hne : layout ≠ [])
    (hcont : Limb.Contiguous rs 0 layout) (hterm : term ∈ terms)
    (hcoefficient : term.monomial.coefficient ≠ 0) :
    term.monomial.vars ⊆ vars (ofTerms layout terms) := by
  intro id hid
  by_contra hunread
  -- were it in no equation, its value would make no difference to their total
  let load : Nat → RegId → Nat := fun n id' => if id' = id then n else 1
  have hsame : total (load 0) (ofTerms layout terms) = total (load 1) (ofTerms layout terms) := by
    refine total_congr fun eq heq m hm id' hid' => ?_
    have hother : id' ≠ id := fun heq' => hunread <|
      List.mem_flatMap.2 ⟨eq, heq, List.mem_flatMap.2 ⟨m, hm, heq' ▸ hid'⟩⟩
    simp [load, hother]
  rw [total_ofTerms _ hne hcont, total_ofTerms _ hne hcont] at hsame
  have hle : ∀ t ∈ terms, t.value (load 0) ≤ t.value (load 1) := fun t _ =>
    Nat.mul_le_mul_left _ (foldl_mul_le _
      (fun id' _ => by simp only [load]; split <;> omega) le_rfl)
  have hlt : term.value (load 0) < term.value (load 1) := by
    have hone : (term.monomial.vars.map (load 1)).prod = 1 :=
      List.prod_eq_one (by simp [load])
    have hzero : (term.monomial.vars.map (load 0)).prod = 0 :=
      List.prod_eq_zero (List.mem_map.2 ⟨id, hid, by simp [load]⟩)
    rw [Term.value, Term.value, Monomial.eval_eq, Monomial.eval_eq, hone, hzero]
    positivity
  exact absurd hsame (List.sum_lt_sum _ _ hle ⟨term, hterm, hlt⟩).ne

end LimbEquation

/-- Limbs that take a sum are stored as they stand, and what the equations read is read, directly or
where it is saved. -/
theorem distribute_straight {site : Site} {terms : List Term} {layout : List Limb}
    {pool later : Pool} {codes : List Microcode}
    (h : distribute site terms layout pool = .ok codes later)
    (hused : ∀ id ∈ Limb.ids layout, id.isUsed = true) :
    Straight (LimbEquation.vars (LimbEquation.ofTerms layout terms)) (Limb.ids layout) codes := by
  obtain ⟨copies, mid, chained, -, hchain, rfl⟩ := distribute_ok h
  have hmoved := LimbEquation.chain_straight hchain
  rw [LimbEquation.written_moved] at hmoved
  have hboth := (LimbEquation.saves_straight copies).append (hmoved hused)
  refine ⟨hboth.through, fun id hid hu => hboth.read id ?_ hu, hboth.stored⟩
  obtain ⟨eq, heq, hid⟩ := List.mem_flatMap.1 hid
  obtain ⟨m, hm, hid⟩ := List.mem_flatMap.1 hid
  rcases LimbEquation.reading_cases copies id with hsame | hcopied
  · refine List.mem_append_right _ (List.mem_flatMap.2 ⟨_, List.mem_map_of_mem heq, ?_⟩)
    refine List.mem_flatMap.2 ⟨_, List.mem_map_of_mem hm, ?_⟩
    exact hsame ▸ List.mem_map_of_mem hid
  · exact List.mem_append_left _ (List.mem_map.2 ⟨_, hcopied, rfl⟩)

/-! ## Stages -/

namespace Subtraction

variable {plan : Subtraction} {pool later : Pool} {stage : Stage} {stages : List Stage}
  {borrow next : RegId} {code : Microcode} {codes : List Microcode} {scratch : List Term}
  {isLast aligned : Bool}

theorem stored_sublist_tail (plan : Subtraction) (isLast : Bool) (next : RegId) :
    (plan.stored isLast).Sublist (plan.tail isLast next) := by
  unfold stored tail
  split
  · exact List.Sublist.refl _
  · exact List.nil_sublist _

theorem stage_straight (h : plan.stage isLast borrow stage pool = .ok (code, scratch, next) later)
    (hzero : plan.width = 0 → stage.low = none)
    (hused : ∀ id ∈ stage.low.toList ++ plan.stored isLast, id.isUsed = true) :
    Straight (stage.minuend.id :: stage.subtracted) (stage.low.toList ++ plan.stored isLast)
      [code] := by
  obtain ⟨targets, mid, hdifference, rfl, -⟩ := stage_cases h
  have hlow : stage.low.toList.Sublist targets := by
    rcases difference_cases hdifference with
      ⟨hwidth, -⟩ | ⟨-, id, hid, rfl, -⟩ | ⟨-, hnone, -⟩
    · simp [hzero hwidth]
    · simp [hid]
    · simp [hnone]
  refine .single rfl ?_ (hlow.append (stored_sublist_tail plan isLast next)) hused
  exact List.cons_subset_cons _ (List.subset_append_left _ _)

theorem stages_straight (h : plan.stages borrow stages pool = .ok (codes, scratch, next) later)
    (hzero : plan.width = 0 → ∀ stage ∈ stages, stage.low = none)
    (hlow : ∀ id ∈ stages.filterMap Stage.low, id.isUsed = true)
    (hhigh : ∀ id ∈ Limb.ids plan.high, id.isUsed = true) :
    Straight (reads stages) (stages.filterMap Stage.low ++ plan.stored (!stages.isEmpty))
      codes := by
  induction stages generalizing borrow pool codes scratch with
  | nil =>
    obtain ⟨heq, rfl⟩ := estate_pure_ok.1 h
    cases heq
    exact .nil
  | cons stage rest ih =>
    obtain ⟨code, scratch₁, next₁, mid, codes₂, scratch₂, hstage, hrest, rfl, rfl⟩ :=
      stages_cons_ok h
    rw [filterMap_low_cons] at hlow ⊢
    have hstored : ∀ last, ∀ id ∈ plan.stored last, id.isUsed = true := fun last id hid => by
      unfold stored at hid
      split at hid
      · exact hhigh id hid
      · cases hid
    have hfirst := stage_straight hstage (fun hwidth => hzero hwidth stage List.mem_cons_self)
      (List.forall_mem_append.2 ⟨fun id hid => hlow id (List.mem_append_left _ hid), hstored _⟩)
    have hrest :=
      ih hrest (fun hwidth stage' hmem => hzero hwidth stage' (List.mem_cons_of_mem _ hmem))
      fun id hid => hlow id (List.mem_append_right _ hid)
    refine (hfirst.cons hrest).mono (List.Subset.refl _) (List.Perm.subperm ?_)
    -- only one of the two parts stores the high limbs
    have hone : plan.stored true = plan.stored rest.isEmpty ++ plan.stored (!rest.isEmpty) := by
      cases rest <;> simp [stored]
    rw [show (!(stage :: rest).isEmpty) = true from rfl, hone, List.append_assoc, List.append_assoc]
    refine List.Perm.append_left _ ?_
    rw [← List.append_assoc, ← List.append_assoc]
    exact List.perm_append_comm.append_right _

/-- Stages, the way from scratch to the low limbs, and what is raised above the minuend. -/
theorem codes_straight {rs : RegisterFile} (h : plan.codes aligned stages pool = .ok codes later)
    (hzero : plan.width = 0 → ∀ stage ∈ stages, stage.low = none) (hne : stages ≠ [])
    (hlow : ∀ id ∈ Limb.ids plan.low, id.isUsed = true)
    (hhigh : ∀ id ∈ Limb.ids plan.high, id.isUsed = true)
    (hlows : stages.filterMap Stage.low = if aligned then Limb.ids plan.low else [])
    (hcont : Limb.Contiguous rs 0 plan.high)
    (habove : ∀ term ∈ plan.above, term.monomial.coefficient ≠ 0) :
    Straight (reads stages ++ Term.reads plan.above) (Limb.ids plan.low ++ Limb.ids plan.high)
      codes := by
  obtain ⟨chain, scratch, next, mid, moved, later₁, hchain, hmoved, hnone, hsome⟩ :=
    codes_ok h
  have hstages := stages_straight hchain hzero (by rw [hlows]; split; exact hlow; simp) hhigh
  rw [show (!stages.isEmpty) = true by simpa using hne, hlows] at hstages
  have hlower :
      Straight (reads stages) (Limb.ids plan.low ++ plan.stored true) (chain ++ moved) := by
    cases aligned with
    | true =>
      obtain ⟨rfl, -⟩ := estate_pure_ok.1 hmoved
      simpa using hstages
    | false =>
      refine (hstages.append (distribute_straight hmoved hlow)).mono
        (List.subset_append_left _ _) ?_
      exact List.perm_append_comm.subperm
  by_cases hempty : plan.above = []
  · obtain ⟨rfl, -⟩ := hnone hempty
    have hstored : plan.stored true = Limb.ids plan.high := by simp [stored, hempty]
    rw [hstored] at hlower
    simpa [hempty, Term.reads] using hlower
  · obtain ⟨hhigh_ne, raised, rfl, hraised⟩ := hsome hempty
    have hstored : plan.stored true = [] := by simp [stored, hempty]
    rw [hstored, List.append_nil] at hlower
    refine (hlower.append (distribute_straight hraised hhigh)).mono ?_ (List.Subperm.refl _)
    refine List.append_subset.2 ⟨List.subset_append_left _ _,
      List.subset_append_of_subset_right _ ?_⟩
    intro id hid
    obtain ⟨term, hterm, hid⟩ := List.mem_flatMap.1 hid
    exact LimbEquation.term_subset_vars hhigh_ne hcont (List.mem_append_left _ hterm)
      (habove term hterm) hid

end Subtraction

/-- The registers that hold anything at all. -/
def RegisterFile.wide (rs : RegisterFile) (ids : List RegId) : List RegId :=
  ids.filter fun id => 0 < rs.widthOf id

namespace Pool

variable {pool : Pool} {rs : RegisterFile} {id : RegId} {ids : List RegId}
    {limbs others : List Limb}

theorem Splits.group_pos (hs : pool.Splits rs) (hpos : 0 < rs.widthOf id) :
    ∀ limb ∈ pool.group id, 0 < pool.registers.widthOf limb := by
  intro limb hlimb
  obtain ⟨group, hgroup⟩ := hs.limbs_of_declares (RegisterFile.declares_of_widthOf_pos hpos)
  rw [group_eq hgroup] at hlimb
  refine limbWidths_pos hs.width_pos hpos _ ?_
  rw [← (hs.limbs_spec hgroup).1]
  exact List.mem_map_of_mem hlimb

/-- Limbs of registers that hold something have bits. -/
theorem LaidOut.group_subset_wide (h : pool.LaidOut ids limbs) (hs : pool.Splits rs) :
    (rs.wide ids).flatMap pool.group ⊆ Limb.ids (Limb.wide limbs) := by
  intro id hid
  obtain ⟨own, hown, hid⟩ := List.mem_flatMap.1 hid
  obtain ⟨hmem, hpos⟩ := List.mem_filter.1 hown
  have hin : id ∈ Limb.ids limbs := by
    rw [h.ids_eq]
    exact List.mem_flatMap.2 ⟨own, hmem, hid⟩
  obtain ⟨limb, hlimb, rfl⟩ := List.mem_map.1 hin
  refine List.mem_map_of_mem (List.mem_filter.2 ⟨hlimb, ?_⟩)
  have hbits := hs.group_pos (by simpa using hpos) limb.id hid
  rw [← (h.contiguous.bounds hlimb).2.2] at hbits
  simpa using hbits

theorem LaidOut.wide_eq (h : pool.LaidOut [id] limbs) (hs : pool.Splits rs)
    (hpos : 0 < rs.widthOf id) : Limb.wide limbs = limbs := by
  refine List.filter_eq_self.2 fun limb hlimb => ?_
  have hgroup : Limb.ids limbs = pool.group id := by simpa using h.ids_eq
  have hbits := hs.group_pos hpos limb.id (hgroup ▸ List.mem_map_of_mem hlimb)
  rw [← (h.contiguous.bounds hlimb).2.2] at hbits
  simpa using hbits

theorem LaidOut.used (h : pool.LaidOut ids limbs) (hs : pool.Splits rs) :
    ∀ id ∈ Limb.ids limbs, id.isUsed = true :=
  fun id hid => RegisterFile.isUsed_of_declares (h.declares hs id hid)

theorem limbsOfEach_wide (hs : pool.Splits rs) (hsize : ∀ id, rs.widthOf id < Word.modulus)
    (h : pool.limbsOfEach ids = .ok others) :
    (rs.wide ids).flatMap pool.group ⊆ Limb.ids others := by
  induction ids generalizing others with
  | nil => exact List.nil_subset _
  | cons id ids ih =>
    obtain ⟨own, rest, hown, hrest, rfl⟩ := limbsOfEach_cons.1 h
    have hfirst := (hs.laidOut (by simpa using hsize id) hown).group_subset_wide hs
    have hwide : rs.wide (id :: ids) = rs.wide [id] ++ rs.wide ids := List.filter_append [id] ids
    rw [hwide, List.flatMap_append, Limb.ids, List.map_append]
    exact List.append_subset.2 ⟨List.subset_append_of_subset_left _ hfirst,
      List.subset_append_of_subset_right _ (ih hrest)⟩

end Pool

namespace Subtraction.Planned

variable {early : Pool} {targets subtrahends : List RegId} {minuend : RegId} {constant pivot : Nat}
  {limbs others : List Limb} {plan : Subtraction} {aligned : Bool} {stages : List Stage}
  (h : Planned early targets minuend subtrahends constant pivot limbs others plan aligned stages)

include h

/-- Every limb of the sources is part of some stage or raised above the minuend. -/
theorem limbs_subset_reads :
    Limb.ids limbs ++ Limb.ids others ⊆ reads stages ++ Term.reads plan.above := by
  refine List.append_subset.2 ⟨List.subset_append_of_subset_left _ ?_, ?_⟩
  · rw [← h.map_minuend, Limb.ids, List.map_map]
    intro id hid
    obtain ⟨stage, hstage, rfl⟩ := List.mem_map.1 hid
    exact List.mem_flatMap.2 ⟨stage, hstage, List.mem_cons_self⟩
  · intro id hid
    obtain ⟨limb, hlimb, rfl⟩ := List.mem_map.1 hid
    by_cases hbelow : limb.offset < plan.width
    · have hmem : limb ∈ Limb.below plan.width others :=
        List.mem_filter.2 ⟨hlimb, by simpa using hbelow⟩
      obtain ⟨m, hm, hoffset⟩ := h.found limb hmem
      rw [← h.map_minuend] at hm
      obtain ⟨stage, hstage, rfl⟩ := List.mem_map.1 hm
      refine List.mem_append_left _ (List.mem_flatMap.2
        ⟨stage, hstage, List.mem_cons_of_mem _ ?_⟩)
      rw [h.subtracted_eq hstage]
      exact List.mem_map_of_mem (List.mem_filter.2 ⟨hmem, by simpa using hoffset.symm⟩)
    · refine List.mem_append_right _ (List.mem_flatMap.2
        ⟨Term.ofLimb limb.id (limb.offset - plan.width), ?_, List.mem_singleton_self _⟩)
      rw [h.above_eq]
      exact List.mem_map_of_mem (List.mem_filter.2 ⟨hlimb, by simpa using hbelow⟩)

end Subtraction.Planned

/-- A subtraction that is lowered was planned. -/
theorem splitSubtraction_planned {site : Site} {targets sources : List RegId} {constant : Nat}
    {early later : Pool} {codes : List Microcode}
    (h : splitSubtraction site targets sources constant early = .ok codes later)
    (hs : early.Splits site.registers) (hsize : ∀ id, site.registers.widthOf id < Word.modulus)
    (hsized : (Microcode.sub targets sources constant).Sized site.registers) :
    ∃ minuend subtrahends pivot plan aligned stages limbs others,
      sources = minuend :: subtrahends ∧
      subPivot targets site.registers (site.registers.widthOf minuend) = some pivot ∧
      plan.width = site.registers.widthOf minuend ∧ stages ≠ [] ∧
      Subtraction.Planned early targets minuend subtrahends constant pivot limbs others plan aligned
        stages ∧ plan.codes aligned stages early = .ok codes later := by
  unfold splitSubtraction at h
  obtain ⟨⟨plan, aligned, stages⟩, mid, hask, hcodes⟩ := estate_bind_ok.1 h
  obtain ⟨hplan, rfl⟩ := Pool.asking_ok.1 hask
  obtain ⟨minuend, subtrahends, pivot, rfl, hpivot⟩ := Pool.planSubtraction_pivot hplan
  have hlists :
      (Microcode.sub targets (minuend :: subtrahends) constant).packedLists site.registers =
        [targets.take pivot, targets.drop pivot] := by
    simp [Microcode.packedLists, hpivot]
  rw [Microcode.Sized, hlists] at hsized
  obtain ⟨hwidth, limbs, others, hplan⟩ := Pool.planSubtraction_laid hs hpivot hsize
    (hsized _ List.mem_cons_self) (hsized _ (by simp)) hplan
  refine ⟨minuend, subtrahends, pivot, plan, aligned, stages, limbs, others, rfl, hpivot,
    hwidth, ?_, hplan, hcodes⟩
  rintro rfl
  exact hplan.limbs_ne_nil hs hplan.map_minuend.symm

theorem splitSubtraction_straight {site : Site} {targets sources : List RegId} {constant : Nat}
    {early later : Pool} {codes : List Microcode}
    (h : splitSubtraction site targets sources constant early = .ok codes later)
    (hs : early.Splits site.registers) (hsize : ∀ id, site.registers.widthOf id < Word.modulus)
    (hsized : (Microcode.sub targets sources constant).Sized site.registers) :
    Straight ((site.registers.wide sources).flatMap early.group) (targets.flatMap early.group)
      codes := by
  obtain ⟨minuend, subtrahends, pivot, plan, aligned, stages, limbs, others, rfl, hpivot,
    hwidth, hne, hplan, hcodes⟩ := splitSubtraction_planned h hs hsize hsized
  have hlows : stages.filterMap Stage.low = if aligned then Limb.ids plan.low else [] := by
    cases aligned with
    | true => exact hplan.filterMap_low rfl
    | false => exact hplan.filterMap_low_eq_nil rfl
  have habove : ∀ term ∈ plan.above, term.monomial.coefficient ≠ 0 := by
    intro term hterm
    rw [hplan.above_eq] at hterm
    obtain ⟨limb, -, rfl⟩ := List.mem_map.1 hterm
    exact Nat.one_ne_zero
  have hcodes := Subtraction.codes_straight hcodes (hplan.low_of_zero hpivot hwidth) hne
    (hplan.low_laid.used hs) (hplan.high_laid.used hs) hlows hplan.high_laid.contiguous habove
  rw [hplan.low_laid.ids_eq, hplan.high_laid.ids_eq, ← List.flatMap_append, List.take_append_drop]
    at hcodes
  refine hcodes.mono (List.Subset.trans ?_ hplan.limbs_subset_reads) (List.Subperm.refl _)
  have hminuend : Limb.ids limbs = early.group minuend := by simpa using hplan.limbs_laid.ids_eq
  have hothers := Pool.limbsOfEach_wide hs hsize hplan.others_eq
  rw [hminuend]
  intro limb hlimb
  obtain ⟨source, hsource, hgroup⟩ := List.mem_flatMap.1 hlimb
  obtain ⟨hmem, hpos⟩ := List.mem_filter.1 hsource
  rcases List.mem_cons.1 hmem with rfl | hmem
  · exact List.mem_append_left _ hgroup
  · refine List.mem_append_right _ (hothers ?_)
    exact List.mem_flatMap.2 ⟨source, List.mem_filter.2 ⟨hmem, hpos⟩, hgroup⟩

/-! ## Sums -/

theorem Monomial.pos_of_maxValue_pos {rs : RegisterFile} {m : Monomial} (h : 0 < m.maxValue rs) :
    m.coefficient ≠ 0 ∧ ∀ id ∈ m.vars, 0 < rs.widthOf id := by
  rw [Monomial.maxValue, Monomial.eval_eq, pos_iff_ne_zero, mul_ne_zero_iff] at h
  refine ⟨h.1, fun id hid => Nat.pos_of_ne_zero fun hzero => h.2 ?_⟩
  exact List.prod_eq_zero (List.mem_map.2 ⟨id, hid, by rw [RegisterFile.maxOf_eq, hzero]; rfl⟩)

/-- The variables that stand in some monomial that is not always zero. -/
def Polynomial.live (rs : RegisterFile) (p : Polynomial) : List RegId :=
  (p.terms.filter fun m => 0 < m.maxValue rs).flatMap Monomial.vars

theorem Polynomial.live_eq_nil {rs : RegisterFile} {p : Polynomial} (h : p.maxValue rs = 0) :
    p.live rs = [] := by
  have hnone : p.terms.filter (fun m => 0 < m.maxValue rs) = [] := by
    refine List.filter_eq_nil_iff.2 fun m hm => ?_
    have hle : m.maxValue rs ≤ p.maxValue rs := Polynomial.maxValue_term_le hm
    simp only [decide_eq_true_eq]
    omega
  rw [live, hnone, List.flatMap_nil]

namespace Pool

variable {pool : Pool} {rs : RegisterFile} {ids : List RegId} {limbs : List Limb}

theorem LaidOut.ne_nil (h : pool.LaidOut ids limbs) (hs : pool.Splits rs) (hne : ids ≠ []) :
    limbs ≠ [] := by
  rintro rfl
  obtain ⟨id, hid⟩ := List.exists_mem_of_ne_nil _ hne
  obtain ⟨group, hgroup⟩ := hs.limbs_of_declares (hs.declares_of_flatten h.flatten_eq id hid)
  have hnil : group = [] := by
    rw [← group_eq hgroup]
    exact List.flatMap_eq_nil_iff.1 h.ids_eq.symm id hid
  have hwidths := (hs.limbs_spec hgroup).1
  rw [hnil] at hwidths
  exact limbWidths_ne_nil hs.width_pos hwidths.symm

/-- Where every factor holds something, every limb of every factor is part of some product. -/
theorem products_wide {found : List (List RegId × Nat)} (hs : pool.Splits rs)
    (hsize : ∀ id, rs.widthOf id < Word.modulus) (h : pool.products ids = .ok found)
    (hpos : ∀ id ∈ ids, 0 < rs.widthOf id) :
    found ≠ [] ∧ ids.flatMap pool.group ⊆ found.flatMap Prod.fst := by
  induction ids generalizing found with
  | nil =>
    cases h
    exact ⟨by simp, List.nil_subset _⟩
  | cons id ids ih =>
    unfold products at h
    obtain ⟨own, hown, h⟩ := except_bind_ok.1 h
    obtain ⟨inner, hinner, h⟩ := except_bind_ok.1 h
    cases h
    have hlaid := hs.laidOut (by simpa using hsize id) hown
    have hgroup : Limb.ids own = pool.group id := by simpa using hlaid.ids_eq
    have hwide : own.filter (fun limb => 0 < limb.width) = own :=
      hlaid.wide_eq hs (hpos id List.mem_cons_self)
    obtain ⟨hne, hsub⟩ := ih hinner fun id' hid' => hpos id' (List.mem_cons_of_mem _ hid')
    obtain ⟨limb, hlimb⟩ := List.exists_mem_of_ne_nil _ (hlaid.ne_nil hs (List.cons_ne_nil _ _))
    obtain ⟨product, hproduct⟩ := List.exists_mem_of_ne_nil _ hne
    have hmem : ∀ limb ∈ own, ∀ product ∈ inner,
        (limb.id :: product.1, Word.add limb.offset product.2) ∈ own.flatMap fun limb =>
          inner.map fun product => (limb.id :: product.1, Word.add limb.offset product.2) :=
      fun limb hlimb product hproduct =>
        List.mem_flatMap.2 ⟨limb, hlimb, List.mem_map.2 ⟨product, hproduct, rfl⟩⟩
    rw [hwide]
    refine ⟨List.ne_nil_of_mem (hmem limb hlimb product hproduct), fun l hl => ?_⟩
    rcases List.mem_append.1 hl with hl | hl
    · rw [← hgroup] at hl
      obtain ⟨limb', hlimb', rfl⟩ := List.mem_map.1 hl
      exact List.mem_flatMap.2 ⟨_, hmem limb' hlimb' product hproduct, List.mem_cons_self⟩
    · obtain ⟨product', hproduct', hl⟩ := List.mem_flatMap.1 (hsub hl)
      exact List.mem_flatMap.2 ⟨_, hmem limb hlimb product' hproduct',
        List.mem_cons_of_mem _ hl⟩

theorem terms_live {p : Polynomial} {ts : List Term} (hs : pool.Splits rs)
    (hsize : ∀ id, rs.widthOf id < Word.modulus) (h : pool.terms p = .ok ts) :
    (p.live rs).flatMap pool.group ⊆
      Term.reads (ts.filter fun term => term.monomial.coefficient ≠ 0) := by
  obtain ⟨ms⟩ := p
  induction ms generalizing ts with
  | nil => exact List.nil_subset _
  | cons m ms ih =>
    obtain ⟨found, rest, hfound, hrest, rfl⟩ := terms_cons.1 h
    have hrest := ih hrest
    rw [Term.reads, List.filter_append, List.flatMap_append]
    by_cases hpos : 0 < m.maxValue rs
    · obtain ⟨hcoefficient, hvars⟩ := Monomial.pos_of_maxValue_pos hpos
      have hlive : Polynomial.live rs ⟨m :: ms⟩ = m.vars ++ Polynomial.live rs ⟨ms⟩ := by
        rw [Polynomial.live, List.filter_cons_of_pos (by simpa using hpos), List.flatMap_cons]
        rfl
      rw [hlive, List.flatMap_append]
      refine List.append_subset.2 ⟨List.subset_append_of_subset_left _ fun l hl => ?_,
        List.subset_append_of_subset_right _ hrest⟩
      obtain ⟨product, hproduct, hl⟩ :=
        List.mem_flatMap.1 ((products_wide hs hsize hfound hvars).2 hl)
      refine List.mem_flatMap.2 ⟨⟨⟨m.coefficient, product.1⟩, product.2⟩, ?_, hl⟩
      exact List.mem_filter.2
        ⟨List.mem_map.2 ⟨product, hproduct, rfl⟩, by simpa using hcoefficient⟩
    · have hlive : Polynomial.live rs ⟨m :: ms⟩ = Polynomial.live rs ⟨ms⟩ := by
        rw [Polynomial.live, List.filter_cons_of_neg (by simpa using hpos)]
        rfl
      rw [hlive]
      exact List.subset_append_of_subset_right _ hrest

end Pool

theorem splitPolynomial_straight {site : Site} {targets : List RegId} {rhs : Polynomial}
    {early later : Pool} {codes : List Microcode} {rs : RegisterFile}
    (h : splitPolynomial site targets rhs early = .ok codes later) (hs : early.Splits rs)
    (hsize : ∀ id, rs.widthOf id < Word.modulus) (ht : (rs.widths targets).sum < Word.modulus)
    (hsilent : targets = [] → rhs.maxValue rs = 0) :
    Straight ((rhs.live rs).flatMap early.group) (targets.flatMap early.group) codes := by
  obtain ⟨layout, terms, hlayout, hterms, h⟩ := splitPolynomial_ok h
  have hlaid := hs.laidOut ht hlayout
  have hcodes := distribute_straight h (hlaid.used hs)
  rw [hlaid.ids_eq] at hcodes
  refine hcodes.mono ?_ (List.Subperm.refl _)
  by_cases hnil : targets = []
  · rw [Polynomial.live_eq_nil (hsilent hnil)]
    exact List.nil_subset _
  · intro l hl
    obtain ⟨term, hterm, hl⟩ := List.mem_flatMap.1 (Pool.terms_live hs hsize hterms hl)
    obtain ⟨hterm, hcoefficient⟩ := List.mem_filter.1 hterm
    exact LimbEquation.term_subset_vars (hlaid.ne_nil hs hnil) hlaid.contiguous hterm
      (by simpa using hcoefficient) hl

/-! ## Casts -/

namespace Piece

variable {early later : Pool} {pieces : List Piece} {targets : List Limb}
    {slots : List (Limb × Nat)}
  {codes casts : List Microcode} {terms : List Term} {site : Site}

theorem isTerminal_moved (move : Piece × RegId) : (moved move).isTerminal = false := by
  rw [moved, copyTo]
  split <;> rfl

theorem moves_straight (moves : List (Piece × RegId))
    (hused : ∀ move ∈ moves, move.2.isUsed = true) :
    Straight (moves.map fun move => move.1.limb.id) (moves.map Prod.snd) (moves.map moved) := by
  induction moves with
  | nil => exact .nil
  | cons move moves ih =>
    have hmove : Straight [move.1.limb.id] [move.2] [moved move] :=
      .single (isTerminal_moved move) (operands_moved move ▸ List.Subset.refl _)
        (by rw [targets_moved])
        (by simpa using hused move List.mem_cons_self)
    exact hmove.cons (ih fun m hm => hused m (List.mem_cons_of_mem _ hm))

theorem clear_straight (ids : List RegId) (hused : ∀ id ∈ ids, id.isUsed = true) :
    Straight [] ids (ids.map fun id => .assign [id] .zero) := by
  induction ids with
  | nil => exact .nil
  | cons id ids ih =>
    have hclear : Straight [] [id] [.assign [id] .zero] :=
      .single rfl (List.nil_subset _) (List.Sublist.refl _)
        (by simpa using hused id List.mem_cons_self)
    exact hclear.cons (ih fun id' hid' => hused id' (List.mem_cons_of_mem _ hid'))

/-- Every target limb is a slot or idle. -/
theorem slots_idle_subperm (hmem : ∀ slot ∈ slots, slot ∈ targets.zipIdx) :
    (Limb.ids targets).Subperm ((slots ++ idle slots targets).map fun slot => slot.1.id) := by
  have hzip : targets.zipIdx.Nodup := by
    have hsnd : (targets.zipIdx.map Prod.snd).Nodup := by
      rw [List.zipIdx_map_snd]
      exact List.nodup_range'
    exact hsnd.of_map _
  have hids : Limb.ids targets = targets.zipIdx.map fun slot => slot.1.id := by
    conv_lhs => rw [← List.zipIdx_map_fst 0 targets, Limb.ids, List.map_map]
    rfl
  rw [hids]
  have htaken :
      (targets.zipIdx.filter fun slot => (slots.map Prod.snd).contains slot.2).Subperm slots := by
    refine (hzip.filter _).subperm fun slot hslot => ?_
    obtain ⟨hslot, htaken⟩ := List.mem_filter.1 hslot
    obtain ⟨slot', hslot', hsame⟩ := List.mem_map.1 (List.contains_iff_mem.1 htaken)
    have heq : slot' = slot := by
      have h₁ := List.mem_zipIdx_iff_getElem?.1 hslot
      have h₂ := List.mem_zipIdx_iff_getElem?.1 (hmem slot' hslot')
      rw [hsame, h₁, Option.some.injEq] at h₂
      exact Prod.ext h₂.symm hsame
    exact heq ▸ hslot'
  obtain ⟨kept, hperm, hsub⟩ : targets.zipIdx.Subperm (slots ++ idle slots targets) :=
    ((List.filter_append_perm _ _).symm.subperm).trans (htaken.append (List.Subperm.refl _))
  exact ⟨kept.map _, hperm.map _, hsub.map _⟩

theorem copies_straight
    (hslots : List.Forall₂ (fun piece slot => piece.slot? targets = some slot) pieces slots)
    (hused : ∀ id ∈ Limb.ids targets, id.isUsed = true) :
    Straight (pieces.map fun piece => piece.limb.id) (Limb.ids targets)
      (copies pieces slots targets) := by
  have hmem := slots_mem hslots
  have htarget : ∀ slot ∈ targets.zipIdx, slot.1.id.isUsed = true := fun slot hslot =>
    hused _ (List.mem_map_of_mem (List.fst_mem_of_mem_zipIdx hslot))
  have hmoves := moves_straight (toSlots pieces slots) (by
    intro move hmove
    obtain ⟨pair, hpair, rfl⟩ := List.mem_map.1 hmove
    exact htarget _ (hmem _ (List.of_mem_zip hpair).2))
  have hclear := clear_straight ((idle slots targets).map fun slot => slot.1.id) (by
    intro id hid
    obtain ⟨slot, hslot, rfl⟩ := List.mem_map.1 hid
    exact htarget slot (List.mem_filter.1 hslot).1)
  have hreads : (toSlots pieces slots).map (fun move => move.1.limb.id) =
      pieces.map fun piece => piece.limb.id := by
    rw [List.map_map]
    conv_rhs => rw [← List.map_fst_zip (Nat.le_of_eq hslots.length_eq), List.map_map]
    rfl
  rw [copies_eq]
  refine (hmoves.append hclear).mono ?_ ?_
  · rw [hreads, List.append_nil]
    exact List.Subset.refl _
  · rw [map_snd_toSlots hslots, ← List.map_append]
    exact slots_idle_subperm hmem

/-- A piece is read where it is cut, or stands as a term. -/
theorem gather_straight (h : gather pieces early = .ok (casts, terms) later) :
    Straight ((pieces.filter fun piece => piece.kept < piece.limb.width).map fun piece =>
      piece.limb.id)
        [] casts ∧
      ∀ piece ∈ pieces, piece.limb.width ≤ piece.kept →
        Term.ofLimb piece.limb.id piece.limb.offset ∈ terms := by
  induction pieces generalizing early casts terms with
  | nil =>
    obtain ⟨heq, rfl⟩ := estate_pure_ok.1 h
    cases heq
    exact ⟨.nil, by simp⟩
  | cons piece pieces ih =>
    rcases gather_cons_ok h with ⟨hcut, whole, mid, casts', terms', -, hrest, rfl, rfl⟩ |
      ⟨hwhole, terms', hrest, rfl⟩
    · obtain ⟨hcasts, hterms⟩ := ih hrest
      have hcast : Straight [piece.limb.id] [] [.cast [whole] piece.limb.id piece.kept] :=
        .single rfl (List.Subset.refl _) (List.nil_sublist _) (by simp)
      rw [List.filter_cons_of_pos (by simpa using hcut)]
      refine ⟨hcast.cons hcasts, fun piece' hmem hle => ?_⟩
      rcases List.mem_cons.1 hmem with rfl | hmem
      · omega
      · exact List.mem_cons_of_mem _ (hterms piece' hmem hle)
    · obtain ⟨hcasts, hterms⟩ := ih hrest
      rw [List.filter_cons_of_neg (by simpa using hwhole)]
      refine ⟨hcasts, fun piece' hmem hle => ?_⟩
      rcases List.mem_cons.1 hmem with rfl | hmem
      · exact List.mem_cons_self
      · exact List.mem_cons_of_mem _ (hterms piece' hmem hle)

theorem move_straight {rs : RegisterFile}
    (h : Piece.move site pieces targets early = .ok codes later)
    (hcont : Limb.Contiguous rs 0 targets) (hused : ∀ id ∈ Limb.ids targets, id.isUsed = true)
    (hsilent : targets = [] → pieces = []) :
    Straight (pieces.map fun piece => piece.limb.id) (Limb.ids targets) codes := by
  rcases move_ok h with ⟨slots, hslots, rfl, -⟩ |
    ⟨casts, terms, mid, distributed, hgather, hdistribute, rfl⟩
  · exact copies_straight (mapM_slot?_eq_some hslots) hused
  · obtain ⟨hcasts, hterms⟩ := gather_straight hgather
    refine (hcasts.append (distribute_straight hdistribute hused)).mono (fun id hid => ?_)
      (List.Subperm.refl _)
    obtain ⟨piece, hpiece, rfl⟩ := List.mem_map.1 hid
    by_cases hcut : piece.kept < piece.limb.width
    · exact List.mem_append_left _
        (List.mem_map_of_mem (List.mem_filter.2 ⟨hpiece, by simpa using hcut⟩))
    · have hne : targets ≠ [] := fun hnil => by
        rw [hsilent hnil] at hpiece
        cases hpiece
      exact List.mem_append_right _ (LimbEquation.term_subset_vars hne hcont
        (hterms piece hpiece (Nat.not_lt.1 hcut)) Nat.one_ne_zero (List.mem_singleton_self _))

theorem guards_straight (pieces : List Piece) :
    Straight (pieces.map fun piece => piece.limb.id) [] (Fragment.codes
      (pieces.map fun piece => Fragment.compareConst piece.limb.id 0 .trailer)) := by
  induction pieces with
  | nil => exact .nil
  | cons piece pieces ih =>
    have hguard : Straight [piece.limb.id] [] [.skip piece.limb.id .unused 0 0] :=
      .single rfl (by simp [Microcode.operands]) (List.nil_sublist _) (by simp)
    exact hguard.cons ih

end Piece

theorem Fragment.codes_plain (codes : List Microcode) :
    Fragment.codes (codes.map Fragment.plain) = codes := map_code_plain codes

theorem splitCast_straight {site : Site} {targets : List RegId} {source : RegId} {width : Nat}
    {early later : Pool} {fragments : List Fragment} {rs : RegisterFile}
    (h : splitCast site targets source width early = .ok fragments later) (hs : early.Splits rs)
    (hsize : ∀ id, rs.widthOf id < Word.modulus) (ht : (rs.widths targets).sum < Word.modulus)
    (hsilent : targets = [] → width = 0) :
    Straight ((rs.wide [source]).flatMap early.group) (targets.flatMap early.group)
      (Fragment.codes fragments) := by
  obtain ⟨limbs, layout, codes, hlimbs, hlayout, hmove, rfl⟩ := splitCast_ok h
  have hlimbs := hs.laidOut (by simpa using hsize source) hlimbs
  have hlaid := hs.laidOut ht hlayout
  have hcodes := Piece.move_straight hmove hlaid.contiguous (hlaid.used hs) fun hnil => by
    have htargets : targets = [] := by
      by_contra hne
      exact hlaid.ne_nil hs hne hnil
    refine List.filter_eq_nil_iff.2 fun piece hpiece => ?_
    obtain ⟨limb, -, rfl⟩ := List.mem_map.1 hpiece
    simp [hsilent htargets]
  have hall := (Piece.guards_straight ((Piece.ofLimbs width limbs).filter fun piece =>
    piece.kept = 0)).append hcodes
  rw [Fragment.codes, List.map_append, ← Fragment.codes, ← Fragment.codes, Fragment.codes_plain]
  rw [hlaid.ids_eq] at hall
  refine hall.mono (fun id hid => ?_) (List.Subperm.refl _)
  -- every limb with bits is guarded or kept
  obtain ⟨limb, hlimb, rfl⟩ := List.mem_map.1 (hlimbs.group_subset_wide hs hid)
  have hpiece : (⟨limb, min (width - limb.offset) limb.width⟩ : Piece) ∈
      Piece.ofLimbs width limbs :=
    List.mem_map_of_mem hlimb
  rw [List.mem_append]
  by_cases hkept : min (width - limb.offset) limb.width = 0
  · exact .inl (List.mem_map.2 ⟨_, List.mem_filter.2 ⟨hpiece, by simpa using hkept⟩, rfl⟩)
  · exact .inr (List.mem_map.2 ⟨_, List.mem_filter.2 ⟨hpiece, by simpa using hkept⟩, rfl⟩)

/-! ## Comparisons -/

namespace Limb

variable {rs : RegisterFile} {base endLeft endRight : Nat} {left right : List RegId}
  {lefts rights : List Limb}

/-- The groups leave out no limb of either side. -/
theorem Open.subset_groups (h : Open rs base endLeft endRight left right lefts rights) :
    (left ++ ids lefts) ++ (right ++ ids rights) ⊆
      (groupsFrom endLeft endRight (left, right) lefts rights).flatMap fun group =>
        group.1 ++ group.2 := by
  induction lefts generalizing base endLeft endRight left right rights with
  | nil =>
    obtain ⟨rfl, rfl, rfl⟩ := h.nil
    exact List.nil_subset _
  | cons limb lefts ih =>
    obtain ⟨first, rest, rfl, ⟨-, hgroups, hopen⟩ | ⟨hgroups, hopen⟩⟩ := h.advance
    · have hrest := ih hopen
      rw [hgroups, List.flatMap_cons]
      intro id hid
      have hcases : id ∈ (left ++ [limb.id]) ++ (right ++ ids first) ∨
          id ∈ ([] ++ ids lefts) ++ ([] ++ ids rest) := by
        simp only [ids, List.map_cons, List.map_append, List.mem_append, List.mem_cons] at hid ⊢
        tauto
      exact List.mem_append.2 (hcases.imp_right (@hrest id))
    · rw [hgroups]
      refine List.Subset.trans (fun id hid => ?_) (ih hopen)
      simp only [ids, List.map_cons, List.map_append, List.mem_append, List.mem_cons] at hid ⊢
      tauto

theorem compareGroup_straight (groups : List Group) :
    Straight (groups.flatMap fun group => group.1 ++ group.2) [] (groups.map compareGroup) := by
  induction groups with
  | nil => exact .nil
  | cons group groups ih =>
    have hfirst : Straight (group.1 ++ group.2) [] [compareGroup group] := by
      refine .single ?_ (operands_compareGroup group ▸ List.Subset.refl _)
        (List.nil_sublist _) (by simp)
      rcases compareGroup_cases group with ⟨l, r, -, hcode⟩ | hcode <;> rw [hcode] <;> rfl
    exact hfirst.cons ih

theorem compareConst_straight (pairs : List (Limb × Nat)) :
    Straight (ids (pairs.map Prod.fst)) []
      (pairs.map fun pair => Microcode.skip pair.1.id .unused pair.2 0) := by
  induction pairs with
  | nil => exact .nil
  | cons pair pairs ih =>
    have hfirst : Straight [pair.1.id] [] [.skip pair.1.id .unused pair.2 0] :=
      .single rfl (by simp [Microcode.operands]) (List.nil_sublist _) (by simp)
    exact hfirst.cons ih

end Limb

theorem splitComparison_straight {site : Site} {left : List RegId} {right : Option (List RegId)}
    {constant landing : Nat} {early later : Pool} {fragments : List Fragment} {rs : RegisterFile}
    (h : splitComparison site left right constant landing early = .ok fragments later)
    (hs : early.Splits rs) (hleft : (rs.widths left).sum < Word.modulus)
    (hright : ∀ ids, right = some ids → (rs.widths ids).sum < Word.modulus) :
    Straight ((rs.wide (left ++ right.getD [])).flatMap early.group) []
      (Fragment.codes fragments) := by
  obtain ⟨-, limbs, hlimbs, ⟨rfl, rfl⟩ | ⟨ids, others, rfl, hothers, htotal, rfl⟩⟩ :=
    splitComparison_ok h
  · have hlaid := hs.laidOut hleft hlimbs
    have hall := Limb.compareConst_straight (limbs.zip (Limb.cutAt constant limbs))
    rw [List.map_fst_zip (Nat.le_of_eq (Limb.length_cutAt constant limbs).symm),
      hlaid.ids_eq] at hall
    rw [Fragment.codes, List.map_map]
    refine hall.mono (Microcode.flatMap_group_subset ?_) (List.Subperm.refl _)
    rw [Option.getD_none, List.append_nil]
    exact List.filter_sublist.subset
  · have hl := hs.laidOut hleft hlimbs
    have hr := hs.laidOut (hright ids rfl) hothers
    have hopen := hl.opens hs hr hleft (hright ids rfl) htotal
    rw [Fragment.codes, List.map_map]
    refine (Limb.compareGroup_straight (Limb.groups limbs others)).mono ?_ (List.Subperm.refl _)
    refine List.Subset.trans ?_ hopen.subset_groups
    rw [Option.getD_some, RegisterFile.wide, List.filter_append, List.flatMap_append,
      List.nil_append, List.nil_append]
    exact List.append_subset.2 ⟨List.subset_append_of_subset_left _ (hl.group_subset_wide hs),
      List.subset_append_of_subset_right _ (hr.group_subset_wide hs)⟩

/-! ## Whole microcodes -/

namespace Microcode

variable {code : Microcode} {rs : RegisterFile} {offset : Nat} {early later : Pool}
  {fragments : List Fragment}

/-- The registers whose values can make a difference: not those that hold nothing, and in a sum not
those that stand in vanishing monomials only. -/
def live (rs : RegisterFile) (code : Microcode) : List RegId :=
  match code.polynomial? with
  | some p => p.live rs
  | none => rs.wide code.operands

/-- What has no target stores nothing: its sum is always zero, and a cast keeps no bit. -/
def Idle (rs : RegisterFile) (code : Microcode) : Prop :=
  code.targets = [] → match code with
    | cast _ _ width => width = 0
    | code => ∀ p, code.polynomial? = some p → p.maxValue rs = 0

theorem Idle.maxValue_eq {p : Polynomial} (h : code.Idle rs) (hp : code.polynomial? = some p)
    (hnil : code.targets = []) : p.maxValue rs = 0 := by
  have hidle := h hnil
  cases code with
  | assign targets rhs => exact hidle p hp
  | add targets sources constant => exact hidle p hp
  | mul targets sources constant => exact hidle p hp
  | _ => cases hp

theorem rename_straight (hsingle : early.Single code) (hs : early.Splits rs)
    (hterm : code.isTerminal = false) :
    Straight (code.reads.flatMap early.group) (code.writes.flatMap early.group)
      [code.mapRegs early.firstLimb] := by
  refine ⟨?_, fun id hid _ => ?_, ?_⟩
  · simpa [isTerminal_mapRegs] using hterm
  · rw [allReads, List.flatMap_singleton]
    exact (mem_reads_rename hsingle hs).2 hid
  · rw [allWrites, List.flatMap_singleton, writes_rename hsingle hs]

theorem live_pos {id : RegId} (hid : id ∈ code.live rs) :
    id ∈ code.operands ∧ 0 < rs.widthOf id := by
  unfold live at hid
  split at hid
  · rename_i p hp
    obtain ⟨m, hm, hvar⟩ := List.mem_flatMap.1 hid
    obtain ⟨hm, hpos⟩ := List.mem_filter.1 hm
    exact ⟨registers_subset hp (Polynomial.mem_registers.2 ⟨m, hm, hvar⟩),
      (Monomial.pos_of_maxValue_pos (by simpa using hpos)).2 id hvar⟩
  · obtain ⟨hmem, hpos⟩ := List.mem_filter.1 hid
    exact ⟨hmem, by simpa using hpos⟩

theorem live_subset_reads : code.live rs ⊆ code.reads := by
  intro id hid
  obtain ⟨hmem, hpos⟩ := live_pos hid
  exact List.mem_filter.2
    ⟨hmem, RegisterFile.isUsed_of_declares (RegisterFile.declares_of_widthOf_pos hpos)⟩

theorem lower_straight (h : lower ⟨code, rs⟩ offset early = .ok fragments later)
    (hs : early.Splits rs) (hsize : ∀ id, rs.widthOf id < Word.modulus) (hsized : code.Sized rs)
    (hidle : code.Idle rs) (hterm : code.isTerminal = false) :
    Straight ((code.live rs).flatMap early.group) (code.writes.flatMap early.group)
      (Fragment.codes fragments) := by
  cases lower_ok h with
  | sum hp h =>
    obtain ⟨layout, terms, hlayout, -, -⟩ := splitPolynomial_ok h
    have hwrites : code.writes = code.targets := List.filter_eq_self.2 (hs.used_of_layout hlayout)
    rw [Fragment.codes_plain, hwrites, live, hp]
    exact splitPolynomial_straight h hs hsize (hsized.targets_lt hp) (hidle.maxValue_eq hp)
  | @difference targets sources constant codes later h =>
    have hwrites : (sub targets sources constant).writes = targets :=
      List.filter_eq_self.2 (splitSubtraction_used h hs).2
    rw [Fragment.codes_plain, hwrites]
    exact splitSubtraction_straight h hs hsize hsized
  | @copy targets source width fragments later h =>
    obtain ⟨limbs, layout, codes, -, hlayout, -⟩ := splitCast_ok h
    have hwrites : (cast targets source width).writes = targets :=
      List.filter_eq_self.2 (hs.used_of_layout hlayout)
    rw [hwrites]
    exact splitCast_straight h hs hsize (hsized _ List.mem_cons_self) hidle
  | comparison hcompares h =>
    obtain ⟨hleft, hright⟩ := hcompares.sides_lt (hcompares.runnable hsized) hsize
    have hall := splitComparison_straight h hs hleft hright
    rw [live, hcompares.polynomial?_eq, writes, hcompares.targets_eq]
    refine hall.mono (flatMap_group_subset fun id hid => ?_) (List.Subperm.refl _)
    obtain ⟨hmem, hpos⟩ := List.mem_filter.1 hid
    have hused := RegisterFile.isUsed_of_declares
      (RegisterFile.declares_of_widthOf_pos (of_decide_eq_true hpos))
    exact List.mem_filter.2 ⟨hcompares.mem_sides hused hmem, hpos⟩
  | renamed hsingle =>
    exact (rename_straight hsingle hs hterm).mono (flatMap_group_subset live_subset_reads)
      (List.Subperm.refl _)
  | @lines bus targets sources targets' sources' htargets hsources =>
    have hdecl := hs.declares_of_flatten htargets
    have hwrites : (call bus targets sources).writes = targets :=
      List.filter_eq_self.2 fun id hid => RegisterFile.isUsed_of_declares (hdecl id hid)
    rw [hwrites, ← Pool.flatten_eq_lines htargets]
    refine .single rfl ?_ (List.Sublist.refl _) ?_
    · rw [Pool.flatten_eq_lines hsources]
      exact flatMap_group_subset List.filter_sublist.subset
    · exact fun id hid => RegisterFile.isUsed_of_declares (hs.declares_limbs htargets id hid)

end Microcode

end LimbMachine
