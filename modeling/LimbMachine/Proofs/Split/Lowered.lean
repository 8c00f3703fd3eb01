import LimbMachine.Proofs.Split.Emission
import LimbMachine.Proofs.Split.Lines

/-!
# What the lowerings emit

A sum, a subtraction and a cast are split into microcodes that read the limbs of what they read and
write the limbs of what they write (`splitPolynomial_emits`, `splitSubtraction_emits`,
`Piece.move_emits`). Borrows are as wide as they can get; since what is borrowed ends up in the high
targets, no borrow is wider than the stages after it and these (`Subtraction.stages_room`).
-/

namespace LimbMachine

open Microcode (allWrites Ordered)

/-! ## Stages -/

/-- A borrow that enters a stage is no wider than the stage's limb and what the stage borrows. -/
theorem Stage.widthOf_borrow_le (stage : Stage) (rs : RegisterFile) (borrow : RegId) :
    rs.widthOf borrow ≤ stage.minuend.width + stage.borrowBits rs borrow := by
  have hmost : 2 ^ rs.widthOf borrow - 1 ≤
      stage.constant + ((stage.subtracted ++ borrow.listed).map rs.maxOf).sum := by
    rw [← RegisterFile.maxOf_eq, List.map_append, List.sum_append]
    cases borrow with
    | unused => exact Nat.zero_le _
    | reg i =>
      have hlisted : (RegId.reg i).listed = [.reg i] := rfl
      rw [hlisted, List.map_singleton, List.sum_singleton]
      omega
  have hborrows := hmost.trans (le_mul_borrowsFor _ stage.minuend.width)
  have hbits := Nat.mul_le_mul_left (2 ^ stage.minuend.width) (lt_two_pow_bitLength (borrowsFor
    (stage.constant + ((stage.subtracted ++ borrow.listed).map rs.maxOf).sum) stage.minuend.width))
  rw [← Nat.pow_add, Nat.succ_eq_add_one, Nat.mul_add, Nat.mul_one] at hbits
  have hpos := Nat.two_pow_pos stage.minuend.width
  exact (Nat.pow_le_pow_iff_right (by decide)).1
    (show 2 ^ rs.widthOf borrow ≤ 2 ^ (stage.minuend.width + stage.borrowBits rs borrow) by
      rw [Stage.borrowBits]
      omega)

namespace Subtraction

variable {plan : Subtraction} {pool mid later : Pool} {stage : Stage} {stages : List Stage}
  {borrow next d : RegId} {code : Microcode} {codes : List Microcode} {scratch : List Term}
  {isLast : Bool}

/-- The registers that stages read, borrows apart. -/
abbrev reads (stages : List Stage) : List RegId :=
  stages.flatMap fun stage => stage.minuend.id :: stage.subtracted

/-- The targets are no inputs, and a subtraction without bits has no low ones. -/
structure Assignable (plan : Subtraction) (rs : RegisterFile) (stages : List Stage) : Prop where
  low : ∀ stage ∈ stages, ∀ id, stage.low = some id → rs.isInput id = false
  high : ∀ id ∈ Limb.ids plan.high, rs.isInput id = false
  zero : plan.width = 0 → ∀ stage ∈ stages, stage.low = none

theorem Assignable.tail {rs : RegisterFile} (h : plan.Assignable rs (stage :: stages)) :
    plan.Assignable rs stages where
  low stage' hmem := h.low stage' (List.mem_cons_of_mem _ hmem)
  high := h.high
  zero hzero stage' hmem := h.zero hzero stage' (List.mem_cons_of_mem _ hmem)

theorem Assignable.mono {rs rs' : RegisterFile} (h : plan.Assignable rs stages)
    (hready : plan.Ready rs stages) (hpre : rs <+: rs') : plan.Assignable rs' stages where
  low stage hmem id hlow := by
    rw [RegisterFile.isInput_mono hpre (hready.low stage hmem id hlow).1]
    exact h.low stage hmem id hlow
  high id hid := by
    rw [RegisterFile.isInput_mono hpre (hready.high.declared id hid)]
    exact h.high id hid
  zero := h.zero

/-- What takes the borrow of a stage: the high targets, or a new register. -/
structure Borrows (plan : Subtraction) (isLast : Bool) (borrow next : RegId) (mid later : Pool) :
    Prop where
  grows : mid.Extends later
  known : later.registers.Knows next
  declared : ∀ id ∈ plan.tail isLast next, later.registers.declares id = true
  notInput : ∀ id ∈ plan.tail isLast next, later.registers.isInput id = false
  nodup : (plan.tail isLast next).Nodup
  stored : plan.stored isLast ⊆ plan.tail isLast next
  only : ∀ id ∈ plan.tail isLast next, id ∈ plan.stored isLast ∨
    mid.registers.declares id = false
  listed : next = borrow ∨ plan.tail isLast next = next.listed
  pos : (∀ id ∈ borrow.listed, 0 < mid.registers.widthOf id) →
    ∀ id ∈ next.listed, 0 < later.registers.widthOf id

theorem stage_borrows
    (h : plan.stage isLast borrow stage pool = .ok (code, scratch, next) later)
    (hready : plan.Ready pool.registers (stage :: stages))
    (hassign : plan.Assignable pool.registers (stage :: stages))
    (hborrow : pool.registers.Knows borrow) :
    ∃ d mid, plan.Differs stage pool d scratch mid ∧
      plan.Borrows isLast borrow next mid later ∧ code = .sub (d.listed ++ plan.tail isLast next)
        (stage.minuend.id :: (stage.subtracted ++ borrow.listed)) stage.constant ∧
      stage.borrowBits pool.registers borrow ≤
        (later.registers.widths (plan.tail isLast next)).sum := by
  obtain ⟨targets, mid, hdiff, rfl, hcase⟩ := stage_cases h
  obtain ⟨d, rfl, hd⟩ := difference_ok hdiff hready
  have hpre := hd.grows.registers
  refine ⟨d, mid, hd, ?_⟩
  rcases hcase with ⟨hlast, rfl, rfl, hbits⟩ | ⟨hlast, halloc⟩
  · have hplaced := hready.high.mono hpre
    have htail : plan.tail isLast next = Limb.ids plan.high := if_pos hlast
    have hstored : plan.stored isLast = Limb.ids plan.high := if_pos hlast
    rw [htail]
    refine ⟨⟨.refl mid, hborrow.mono hpre, ?_, ?_, ?_, ?_, ?_, .inl rfl, fun hpos => hpos⟩,
      rfl, ?_⟩
    · exact htail ▸ hplaced.declared
    · intro id hid
      rw [htail] at hid
      rw [RegisterFile.isInput_mono hpre (hready.high.declared id hid)]
      exact hassign.high id hid
    · exact htail ▸ hplaced.nodup
    · rw [htail, hstored]
      exact List.Subset.refl _
    · intro id hid
      rw [htail] at hid
      exact .inl (hstored ▸ hid)
    · rw [← hplaced.contiguous.map_width]
      exact hbits.trans (Nat.mod_le _ _)
  · have halloc := Pool.allocate_ok halloc
    have htail : plan.tail isLast next = next.listed :=
      if_neg (by rw [hlast]; exact Bool.false_ne_true)
    have hstored : plan.stored isLast = [] := if_neg (by rw [hlast]; exact Bool.false_ne_true)
    rw [htail]
    refine ⟨⟨halloc.grows, halloc.known, ?_, ?_, ?_, ?_, ?_, .inr htail, ?_⟩, rfl, ?_⟩
    · exact htail ▸ fun id hid => (halloc.of_listed hid).1
    · exact htail ▸ fun id hid => (halloc.of_listed hid).2.1
    · exact htail ▸ next.nodup_listed
    · exact hstored ▸ List.nil_subset _
    · exact htail ▸ fun id hid => .inr (halloc.of_listed hid).2.2
    · intro _ id hid
      obtain ⟨rfl, hused⟩ := RegId.mem_listed.1 hid
      rw [halloc.widthOf_eq]
      exact halloc.used_iff.1 hused
    · rw [RegisterFile.sum_widths_listed, halloc.widthOf_eq]

/-- What there is to take the borrow of the last stage. -/
def room (plan : Subtraction) (rs : RegisterFile) (next : RegId) : Nat :=
  if plan.above.isEmpty then (plan.high.map Limb.width).sum else rs.widthOf next

/-- A borrow that enters stages is no wider than these and what takes the last borrow. -/
theorem stages_room (h : plan.stages borrow stages pool = .ok (codes, scratch, next) later)
    (hlast : (stages.isEmpty && plan.above.isEmpty) = false) :
    pool.registers.widthOf borrow ≤
      (stages.map fun stage => stage.minuend.width).sum + plan.room later.registers next := by
  induction stages generalizing borrow pool codes scratch with
  | nil =>
    obtain ⟨heq, rfl⟩ := estate_pure_ok.1 h
    cases heq
    have habove : plan.above.isEmpty = false := hlast
    simp [room, habove]
  | cons stage stages ih =>
    obtain ⟨code, scratch₁, next₁, mid, codes₂, scratch₂, hstage, hrest, rfl, rfl⟩ :=
      stages_cons_ok h
    have hborrow := stage.widthOf_borrow_le pool.registers borrow
    obtain ⟨targets, mid', -, -, ⟨hlast', -, -, hbits⟩ | ⟨hlast', halloc⟩⟩ :=
      stage_cases hstage
    · have habove : plan.above.isEmpty = true := (Bool.and_eq_true_iff.1 hlast').2
      have hhigh : Limb.total plan.high ≤ (plan.high.map Limb.width).sum := Nat.mod_le _ _
      rw [room, if_pos habove, List.map_cons, List.sum_cons]
      omega
    · have hnext := ih hrest hlast'
      rw [(Pool.allocate_ok halloc).widthOf_eq] at hnext
      rw [List.map_cons, List.sum_cons]
      omega

/-- So is what takes the borrow of the stage before them. -/
theorem tail_room (h : plan.stages borrow stages pool = .ok (codes, scratch, next) later)
    (hhigh : Limb.Placed pool.registers plan.high) :
    (pool.registers.widths (plan.tail stages.isEmpty borrow)).sum ≤
      (stages.map fun stage => stage.minuend.width).sum + plan.room later.registers next := by
  cases hlast : stages.isEmpty && plan.above.isEmpty with
  | true =>
    have habove : plan.above.isEmpty = true := (Bool.and_eq_true_iff.1 hlast).2
    rw [tail, if_pos hlast, room, if_pos habove, ← hhigh.contiguous.map_width]
    exact Nat.le_add_left _ _
  | false =>
    have hborrow := stages_room h hlast
    rwa [tail, hlast, if_neg Bool.false_ne_true, RegisterFile.sum_widths_listed]

/-- What a stage leaves: its microcode, the scratch register of the difference, and the borrow. -/
structure Leaves (pool later : Pool) (borrow : RegId) (codes : List Microcode) (scratch : List Term)
    (next : RegId) : Prop where
  known : later.registers.Knows next
  scratch_written : Term.reads scratch ⊆ allWrites codes
  scratch_pos : ∀ id ∈ Term.reads scratch, 0 < later.registers.widthOf id
  next_written : next.listed ⊆ borrow.listed ++ allWrites codes
  next_pos : (∀ id ∈ borrow.listed, 0 < pool.registers.widthOf id) →
    ∀ id ∈ next.listed, 0 < later.registers.widthOf id

section Stage

variable (hd : plan.Differs stage pool d scratch mid)
    (hb : plan.Borrows isLast borrow next mid later)
  (hready : plan.Ready pool.registers (stage :: stages))

include hd hb

theorem Differs.widthOf_later : later.registers.widthOf d = stage.minuend.width := by
  rw [hd.known.widthOf_eq hb.grows.registers, hd.width_eq]

theorem Differs.leaves (hwrites : allWrites [code] = d.listed ++ plan.tail isLast next) :
    Leaves pool later borrow [code] scratch next := by
  have hscratch : Term.reads scratch ⊆ d.listed := by
    rw [hd.scratch_eq]
    split
    · exact List.nil_subset _
    · intro id hid
      obtain ⟨term, hterm, hid⟩ := List.mem_flatMap.1 hid
      obtain ⟨id', hid', rfl⟩ := List.mem_map.1 hterm
      rwa [List.mem_singleton.1 hid]
  refine ⟨hb.known, ?_, ?_, ?_, fun hpos => hb.pos fun id hid => ?_⟩
  · rw [hwrites]
    exact List.subset_append_of_subset_left _ hscratch
  · intro id hid
    obtain ⟨rfl, hused⟩ := RegId.mem_listed.1 (hscratch hid)
    rw [hd.widthOf_later hb]
    exact hd.used_iff.1 hused
  · rw [hwrites]
    rcases hb.listed with rfl | htail
    · exact List.subset_append_left _ _
    · rw [htail]
      exact List.subset_append_of_subset_right _ (List.subset_append_right _ _)
  · have hpos' := hpos id hid
    rwa [RegisterFile.widthOf_mono hd.grows.registers (RegisterFile.declares_of_widthOf_pos hpos')]

include hready

/-- The difference goes to a register of its own, which does not take the borrow. -/
theorem Differs.listed_spec (hassign : plan.Assignable pool.registers (stage :: stages)) :
    ∀ id ∈ d.listed, later.registers.declares id = true ∧
      later.registers.isInput id = false ∧ id ∉ plan.tail isLast next := by
  intro id hid
  obtain ⟨rfl, hused⟩ := RegId.mem_listed.1 hid
  have hdecl := hd.known hused
  refine ⟨hd.known.mono hb.grows.registers hused, ?_, fun htail => ?_⟩
  · rw [RegisterFile.isInput_mono hb.grows.registers hdecl]
    cases hpool : pool.registers.declares id with
    | true =>
      rw [RegisterFile.isInput_mono hd.grows.registers hpool]
      exact hassign.low stage List.mem_cons_self id (hd.own hpool)
    | false => exact hd.grows.isInput_new hpool
  · rcases hb.only id htail with hstored | hfresh
    · exact hd.not_mem_stored hready hstored
    · exact Bool.false_ne_true (hfresh.symm.trans hdecl)

theorem stage_proper (hassign : plan.Assignable pool.registers (stage :: stages))
    (hborrow : pool.registers.Knows borrow)
    (hbits : stage.borrowBits pool.registers borrow ≤
      (later.registers.widths (plan.tail isLast next)).sum)
    (hsize : stage.minuend.width + (later.registers.widths (plan.tail isLast next)).sum <
      Word.modulus) :
    (Microcode.sub (d.listed ++ plan.tail isLast next)
      (stage.minuend.id :: (stage.subtracted ++ borrow.listed)) stage.constant).Proper
        later.registers := by
  have hmem : stage ∈ stage :: stages := List.mem_cons_self
  have hpre := hd.grows.registers.trans hb.grows.registers
  have hlisted := hd.listed_spec hb hready hassign
  have hwidth := hd.widthOf_later hb
  have hminuend : later.registers.widthOf stage.minuend.id = stage.minuend.width := by
    rw [RegisterFile.widthOf_mono hpre (hready.minuend stage hmem), hready.width_eq stage hmem]
  refine ⟨fun id hid => ?_, fun id hid => ?_, ?_, ?_, ?_⟩
  · rcases List.mem_append.1 hid with hid | hid
    · rcases List.mem_cons.1 hid with rfl | hid
      · exact RegisterFile.declares_mono hpre (hready.minuend stage hmem)
      · rcases List.mem_append.1 hid with hid | hid
        · exact RegisterFile.declares_mono hpre (hready.subtracted stage hmem id hid)
        · obtain ⟨rfl, hused⟩ := RegId.mem_listed.1 hid
          exact hborrow.mono hpre hused
    · rcases List.mem_append.1 hid with hid | hid
      · exact (hlisted id hid).1
      · exact hb.declared id hid
  · rcases List.mem_append.1 hid with hid | hid
    · exact (hlisted id hid).2.1
    · exact hb.notInput id hid
  · exact d.nodup_listed.append hb.nodup fun id hid htail => (hlisted id hid).2.2 htail
  · rwa [Microcode.targets, RegisterFile.widths_append, List.sum_append,
      RegisterFile.sum_widths_listed, hwidth]
  · refine ⟨_, _, d.listed.length, rfl, ?_, ?_⟩
    · rw [hminuend]
      exact subPivot_listed _ hwidth hd.used_iff (hready.size stage hmem)
    · rw [List.drop_left, hminuend]
      refine Nat.le_trans (Nat.le_of_eq ?_) hbits
      exact stage.borrowBits_mono hpre (hready.subtracted stage hmem) hborrow

end Stage

theorem stage_emits (h : plan.stage isLast borrow stage pool = .ok (code, scratch, next) later)
    (hready : plan.Ready pool.registers (stage :: stages))
    (hassign : plan.Assignable pool.registers (stage :: stages))
    (hborrow : pool.registers.Knows borrow)
    (hsize : stage.minuend.width + (later.registers.widths (plan.tail isLast next)).sum <
      Word.modulus) :
    pool.Emits later (borrow.listed ++ stage.minuend.id :: stage.subtracted)
        (stage.low.toList ++ plan.stored isLast) [code] ∧
      Leaves pool later borrow [code] scratch next := by
  obtain ⟨d, mid, hd, hb, rfl, hbits⟩ := stage_borrows h hready hassign hborrow
  have hmem : stage ∈ stage :: stages := List.mem_cons_self
  have hproper := stage_proper hd hb hready hassign hborrow hbits hsize
  constructor
  · refine .single (hd.grows.trans hb.grows) hproper ?_ ?_ ?_
    · intro id hid
      rcases List.mem_cons.1 hid with rfl | hid
      · exact List.mem_append_right _ List.mem_cons_self
      · rcases List.mem_append.1 hid with hid | hid
        · exact List.mem_append_right _ (List.mem_cons_of_mem _ hid)
        · exact List.mem_append_left _ hid
    · refine List.append_subset.2 ⟨fun id hid => ?_,
        List.subset_append_of_subset_right _ hb.stored⟩
      have hlow := Option.mem_toList.1 hid
      -- only a subtraction without bits leaves its low targets out, and it has none
      have hwidth : stage.minuend.width ≠ 0 := by
        intro hzero
        rw [hassign.zero ((hready.zero_iff stage hmem).1 hzero) stage hmem] at hlow
        cases hlow
      obtain rfl := (hd.low id hlow).resolve_right hwidth
      exact List.mem_append_left _ (RegId.mem_listed.2 ⟨rfl,
        hd.used_iff.2 (Nat.pos_of_ne_zero hwidth)⟩)
    · intro id hid
      rcases List.mem_append.1 hid with hid | hid
      · obtain ⟨rfl, -⟩ := RegId.mem_listed.1 hid
        cases hpool : pool.registers.declares id with
        | true => exact .inl (List.mem_append_left _ (Option.mem_toList.2 (hd.own hpool)))
        | false => exact .inr rfl
      · exact (hb.only id hid).imp (List.mem_append_right _)
          (RegisterFile.not_declares_mono hd.grows.registers)
  · apply hd.leaves hb
    rw [allWrites, List.flatMap_singleton, hproper.writes_eq]
    rfl

theorem Leaves.append {codes' : List Microcode} {scratch' : List Term} {final : RegId}
    (h : Leaves pool mid borrow codes scratch next)
    (h' : Leaves mid later next codes' scratch' final) (hpre : mid.registers <+: later.registers) :
    Leaves pool later borrow (codes ++ codes') (scratch ++ scratch') final := by
  have hwrites : allWrites (codes ++ codes') = allWrites codes ++ allWrites codes' :=
    List.flatMap_append
  have hreads : Term.reads (scratch ++ scratch') = Term.reads scratch ++ Term.reads scratch' :=
    List.flatMap_append
  refine ⟨h'.known, ?_, ?_, ?_, fun hpos => h'.next_pos (h.next_pos hpos)⟩
  · rw [hwrites, hreads]
    exact List.append_subset.2 ⟨List.subset_append_of_subset_left _ h.scratch_written,
      List.subset_append_of_subset_right _ h'.scratch_written⟩
  · intro id hid
    rw [hreads] at hid
    rcases List.mem_append.1 hid with hid | hid
    · have hpos := h.scratch_pos id hid
      rwa [RegisterFile.widthOf_mono hpre (RegisterFile.declares_of_widthOf_pos hpos)]
    · exact h'.scratch_pos id hid
  · intro id hid
    rw [hwrites, ← List.append_assoc]
    rcases List.mem_append.1 (h'.next_written hid) with hid | hid
    · exact List.mem_append_left _ (h.next_written hid)
    · exact List.mem_append_right _ hid

/-- The targets of a stage are not among those of later stages. -/
theorem Ready.disjoint (h : plan.Ready pool.registers (stage :: stages)) :
    (stage.low.toList ++ plan.stored stages.isEmpty).Disjoint
      (stages.filterMap Stage.low ++ plan.stored (!stages.isEmpty)) := by
  have hnodup := h.nodup
  have hapart := h.apart
  rw [filterMap_low_cons] at hnodup hapart
  have hlows := (List.nodup_append.1 hnodup).2.2
  have hstored : ∀ {isLast : Bool} {id : RegId}, id ∈ plan.stored isLast →
      id ∉ stage.low.toList ++ stages.filterMap Stage.low := by
    intro isLast id hid hlow
    refine hapart hlow ?_
    unfold stored at hid
    split at hid
    · exact hid
    · cases hid
  intro id hid hid'
  rcases List.mem_append.1 hid with hid | hid
  · rcases List.mem_append.1 hid' with hid' | hid'
    · exact hlows id hid id hid' rfl
    · exact hstored hid' (List.mem_append_left _ hid)
  · rcases List.mem_append.1 hid' with hid' | hid'
    · exact hstored hid (List.mem_append_right _ hid')
    · -- the high targets are stored by the last stage only
      have hlast := (mem_stored hid).1
      have hnot := (mem_stored hid').1
      simp [hlast] at hnot

/-- A chain of stages stores into its low targets and, at its end, into the high ones. -/
theorem stages_emit (h : plan.stages borrow stages pool = .ok (codes, scratch, next) later)
    (hready : plan.Ready pool.registers stages) (hassign : plan.Assignable pool.registers stages)
    (hborrow : pool.registers.Knows borrow)
    (hsize : (stages.map fun stage => stage.minuend.width).sum + plan.room later.registers next <
      Word.modulus) :
    pool.Emits later (borrow.listed ++ reads stages)
        (stages.filterMap Stage.low ++ plan.stored (!stages.isEmpty)) codes ∧
      Leaves pool later borrow codes scratch next := by
  induction stages generalizing borrow pool codes scratch with
  | nil =>
    obtain ⟨heq, rfl⟩ := estate_pure_ok.1 h
    cases heq
    refine ⟨.nil pool _, hborrow, ?_, ?_, ?_, fun hpos => hpos⟩
    · exact List.nil_subset _
    · simp [Term.reads]
    · exact List.subset_append_left _ _
  | cons stage stages ih =>
    obtain ⟨code, scratch₁, next₁, mid, codes₂, scratch₂, hstage, hrest, rfl, rfl⟩ :=
      stages_cons_ok h
    rw [List.map_cons, List.sum_cons] at hsize
    obtain ⟨d, mid', hd, hmid', -⟩ := stage_ok hstage hready hborrow
    have htail := tail_room hrest (hready.high.mono (hd.grows.trans hmid').registers)
    obtain ⟨hfirst, hleaves⟩ := stage_emits hstage hready hassign hborrow (by omega)
    have hpre := hfirst.grows.registers
    obtain ⟨hemits, hleaves'⟩ := ih hrest (hready.tail.mono hpre)
      (hassign.tail.mono hready.tail hpre) hleaves.known (by omega)
    refine ⟨?_, hleaves.append hleaves' hemits.grows.registers⟩
    have hfirst : pool.Emits mid (borrow.listed ++ reads (stage :: stages))
        (stage.low.toList ++ plan.stored stages.isEmpty) [code] :=
      hfirst.mono_reads (List.append_subset.2 ⟨List.subset_append_left _ _,
        List.subset_append_of_subset_right _ (List.subset_append_left _ _)⟩)
    refine (hfirst.append hemits ?_ hready.disjoint ?_).retarget ?_ ?_
    · refine List.append_subset.2 ⟨fun id hid => ?_, fun id hid => ?_⟩
      · rcases List.mem_append.1 (hleaves.next_written hid) with hid | hid
        · exact List.mem_append_left _ (List.mem_append_left _ hid)
        · exact List.mem_append_right _ hid
      · exact List.mem_append_left _ (List.mem_append_right _ (List.mem_append_right _ hid))
    · intro id hid
      rcases List.mem_append.1 hid with hid | hid
      · obtain ⟨stage', hstage', hlow⟩ := List.mem_filterMap.1 hid
        exact (hready.low stage' (List.mem_cons_of_mem _ hstage') id hlow).1
      · unfold stored at hid
        split at hid
        · exact hready.high.declared id hid
        · cases hid
    · intro id hid
      rw [filterMap_low_cons] at hid
      cases stages with
      | nil => simpa [stored] using hid
      | cons other stages => simpa [stored, or_assoc] using hid
    · intro id hid
      rw [filterMap_low_cons]
      cases stages with
      | nil => simpa [stored] using hid
      | cons other stages => simpa [stored, or_assoc] using hid

/-- The low targets take the difference from the stages or from the scratch registers. -/
theorem lows_emit {aligned : Bool} {moved : List Microcode}
    (hchain : plan.stages .unused stages pool = .ok (codes, scratch, next) mid)
    (hmoved : (if aligned then pure [] else distribute plan.site scratch plan.low : SplitM _) mid =
      .ok moved later)
    (hready : plan.Ready pool.registers stages) (hassign : plan.Assignable pool.registers stages)
    (hne : stages ≠ []) (hlow : Limb.Placed pool.registers plan.low)
    (hinput : ∀ id ∈ Limb.ids plan.low, pool.registers.isInput id = false)
    (hlows : stages.filterMap Stage.low = if aligned then Limb.ids plan.low else [])
    (hapart : (Limb.ids plan.low).Disjoint (Limb.ids plan.high))
    (hsize : (stages.map fun stage => stage.minuend.width).sum + plan.room mid.registers next <
      Word.modulus) :
    pool.Emits later (reads stages) (Limb.ids plan.low ++ plan.stored true) (codes ++ moved) ∧
      Leaves pool later .unused (codes ++ moved) [] next := by
  obtain ⟨hemits, hleaves⟩ := stages_emit hchain hready hassign (fun hu => (nomatch hu)) hsize
  have hlast : (!stages.isEmpty) = true := by simpa using hne
  have hpre := hemits.grows.registers
  have hlisted : RegId.unused.listed ++ reads stages = reads stages := rfl
  rw [hlast, hlows, hlisted] at hemits
  cases aligned with
  | true =>
    obtain ⟨rfl, rfl⟩ := estate_pure_ok.1 hmoved
    rw [List.append_nil]
    exact ⟨hemits, hleaves.known, List.nil_subset _, by simp [Term.reads], hleaves.next_written,
      hleaves.next_pos⟩
  | false =>
    have hdistributed := distribute_emits hmoved (hlow.mono hpre)
      (fun id hid => by
        rw [RegisterFile.isInput_mono hpre (hlow.declared id hid)]
        exact hinput id hid)
      hleaves.scratch_pos
    have hstored : (plan.stored true).Disjoint (Limb.ids plan.low) := by
      intro id hid hid'
      unfold stored at hid
      split at hid
      · exact hapart hid' hid
      · cases hid
    have hboth := hemits.append hdistributed
      (List.subset_append_of_subset_right _ hleaves.scratch_written) hstored hlow.declared
    refine ⟨hboth.retarget (by simp) (by simp), ?_, List.nil_subset _, by simp [Term.reads], ?_,
      ?_⟩
    · exact hleaves.known.mono hdistributed.grows.registers
    · refine List.Subset.trans hleaves.next_written ?_
      rw [allWrites, allWrites, List.flatMap_append]
      exact List.append_subset.2 ⟨List.subset_append_left _ _,
        List.subset_append_of_subset_right _ (List.subset_append_left _ _)⟩
    · intro hpos id hid
      have hpos' := hleaves.next_pos hpos id hid
      rwa [RegisterFile.widthOf_mono hdistributed.grows.registers
        (RegisterFile.declares_of_widthOf_pos hpos')]

/-- What is raised above the minuend and the last borrow find room in the high limbs. -/
theorem raised_lt {raised : List Microcode}
    (h : distribute plan.site (plan.above ++ next.listed.map (Term.ofLimb · 0)) plan.high pool =
      .ok raised later)
    (hne : plan.high ≠ []) (hcont : Limb.Contiguous pool.registers 0 plan.high)
    (hhigh : ∀ id ∈ Limb.ids plan.high, pool.registers.declares id = true)
    (habove : ∀ id ∈ Term.reads plan.above, pool.registers.declares id = true)
    (hnext : pool.registers.Knows next) :
    (plan.above.map (Term.value pool.registers.maxOf)).sum + pool.registers.maxOf next <
      2 ^ (plan.high.map Limb.width).sum := by
  have hlt := distribute_max_lt h hcont hhigh hne fun term hterm id hid => by
    rcases List.mem_append.1 hterm with hterm | hterm
    · exact .of_declares (habove id (List.mem_flatMap.2 ⟨term, hterm, hid⟩))
    · obtain ⟨id', hid', rfl⟩ := List.mem_map.1 hterm
      rw [List.mem_singleton.1 hid, (RegId.mem_listed.1 hid').1]
      exact hnext
  have hvalue : ((next.listed.map (Term.ofLimb · 0)).map (Term.value pool.registers.maxOf)).sum =
      pool.registers.maxOf next := by
    cases next with
    | unused => rfl
    | reg i => simp [RegId.listed, RegId.isUsed, Term.ofLimb, Term.value, Monomial.eval]
  rwa [List.map_append, List.sum_append, hvalue] at hlt

/-- The high targets have room for the borrow of the last stage. -/
theorem room_le {aligned : Bool} {moved : List Microcode}
    (hchain : plan.stages .unused stages pool = .ok (codes, scratch, next) mid)
    (hmoved : (if aligned then pure [] else distribute plan.site scratch plan.low : SplitM _) mid =
      .ok moved later)
    (hready : plan.Ready pool.registers stages) (hlow : Limb.Placed pool.registers plan.low)
    (habove : ∀ id ∈ Term.reads plan.above, pool.registers.declares id = true)
    (hraised : plan.above ≠ [] → plan.high ≠ [] ∧ ∃ raised final,
      distribute plan.site (plan.above ++ next.listed.map (Term.ofLimb · 0)) plan.high later =
        .ok raised final) :
    plan.room mid.registers next ≤ (plan.high.map Limb.width).sum := by
  by_cases hempty : plan.above = []
  · simp [room, hempty]
  · obtain ⟨hhigh, raised, final, hraised⟩ := hraised hempty
    obtain ⟨hgrows, hnext, -, hscratch, -⟩ := stages_run hchain hready fun hu => (nomatch hu)
    have hmid : mid.Extends later := by
      cases aligned with
      | true =>
        obtain ⟨-, rfl⟩ := estate_pure_ok.1 hmoved
        exact .refl mid
      | false => exact (distribute_runs hmoved (hlow.mono hgrows.registers) hscratch).1
    have hpre := (hgrows.trans hmid).registers
    have hplaced := hready.high.mono hpre
    have hlt := raised_lt hraised hhigh hplaced.contiguous hplaced.declared
      (fun id hid => RegisterFile.declares_mono hpre (habove id hid)) (hnext.mono hmid.registers)
    rw [hnext.maxOf_eq hmid.registers, RegisterFile.maxOf_eq mid.registers next] at hlt
    rw [room, if_neg (by simpa using hempty),
      ← bitLength_two_pow_sub_one (mid.registers.widthOf next)]
    exact bitLength_le_iff.2 (Nat.lt_of_le_of_lt (Nat.le_add_left _ _) hlt)

/-- The microcodes of a plan write the low and the high targets. -/
theorem codes_emit {aligned : Bool} (h : plan.codes aligned stages pool = .ok codes later)
    (hready : plan.Ready pool.registers stages) (hassign : plan.Assignable pool.registers stages)
    (hne : stages ≠ []) (hlow : Limb.Placed pool.registers plan.low)
    (hinput : ∀ id ∈ Limb.ids plan.low, pool.registers.isInput id = false)
    (hlows : stages.filterMap Stage.low = if aligned then Limb.ids plan.low else [])
    (hapart : (Limb.ids plan.low).Disjoint (Limb.ids plan.high))
    (habove : ∀ id ∈ Term.reads plan.above, 0 < pool.registers.widthOf id)
    (hsize : (stages.map fun stage => stage.minuend.width).sum + (plan.high.map Limb.width).sum <
      Word.modulus) :
    pool.Emits later (reads stages ++ Term.reads plan.above)
      (Limb.ids plan.low ++ Limb.ids plan.high) codes := by
  obtain ⟨chain, scratch, next, mid, moved, later₁, hchain, hmoved, hnone, hsome⟩ :=
    codes_ok h
  have hroom := room_le hchain hmoved hready hlow
    (fun id hid => RegisterFile.declares_of_widthOf_pos (habove id hid)) fun hempty => by
      obtain ⟨hhigh, raised, -, hraised⟩ := hsome hempty
      exact ⟨hhigh, raised, later, hraised⟩
  obtain ⟨hemits, hleaves⟩ :=
    lows_emit hchain hmoved hready hassign hne hlow hinput hlows hapart (by omega)
  have hemits := hemits.mono_reads (List.subset_append_left (reads stages) (Term.reads plan.above))
  have hpre := hemits.grows.registers
  by_cases hempty : plan.above = []
  · obtain ⟨rfl, rfl⟩ := hnone hempty
    have hstored : plan.stored true = Limb.ids plan.high := by simp [stored, hempty]
    rwa [hstored] at hemits
  · obtain ⟨-, raised, rfl, hraised⟩ := hsome hempty
    have hstored : plan.stored true = [] := by simp [stored, hempty]
    rw [hstored, List.append_nil] at hemits
    have hreads : Term.reads (plan.above ++ next.listed.map (Term.ofLimb · 0)) =
        Term.reads plan.above ++ next.listed := by
      simp [Term.reads, Term.ofLimb, List.flatMap_map]
    have hpos : ∀ id ∈ Term.reads plan.above ++ next.listed, 0 <
        later₁.registers.widthOf id := by
      intro id hid
      rcases List.mem_append.1 hid with hid | hid
      · have hpos := habove id hid
        rwa [RegisterFile.widthOf_mono hpre (RegisterFile.declares_of_widthOf_pos hpos)]
      · exact hleaves.next_pos (List.forall_mem_nil _) id hid
    have hdistributed := distribute_emits hraised (hready.high.mono hpre)
      (fun id hid => by
        rw [RegisterFile.isInput_mono hpre (hready.high.declared id hid)]
        exact hassign.high id hid)
      (hreads ▸ hpos)
    rw [hreads] at hdistributed
    refine hemits.append hdistributed (List.append_subset.2 ⟨?_, ?_⟩) hapart
      hready.high.declared
    · exact List.subset_append_of_subset_left _ (List.subset_append_right _ _)
    · exact List.subset_append_of_subset_right _ hleaves.next_written

end Subtraction

/-! ## Whole subtractions -/

namespace Pool

variable {pool : Pool} {rs : RegisterFile} {ids : List RegId} {limbs others : List Limb}

theorem LaidOut.ids_eq (h : pool.LaidOut ids limbs) : Limb.ids limbs = ids.flatMap pool.group :=
  flatten_eq_lines h.flatten_eq

theorem LaidOut.notInput (h : pool.LaidOut ids limbs) (hs : pool.Splits rs)
    (hids : ∀ id ∈ ids, rs.isInput id = false) :
    ∀ id ∈ Limb.ids limbs, pool.registers.isInput id = false := by
  intro limb hlimb
  obtain ⟨id, hid, group, hgroup, hmem⟩ := (mem_flatten h.flatten_eq).1 hlimb
  rw [hs.isInput_limbs hgroup limb hmem]
  exact hids id hid

theorem limbsOfEach_ids (hs : pool.Splits rs) (hsize : ∀ id, rs.widthOf id < Word.modulus)
    (h : pool.limbsOfEach ids = .ok others) : Limb.ids others ⊆ ids.flatMap pool.group := by
  induction ids generalizing others with
  | nil => simp [limbsOfEach_nil.1 h]
  | cons id ids ih =>
    obtain ⟨own, rest, hown, hrest, rfl⟩ := limbsOfEach_cons.1 h
    have hlaid := hs.laidOut (by simpa using hsize id) hown
    have hgroup : Limb.ids own = pool.group id := by simpa using hlaid.ids_eq
    rw [Limb.ids, List.map_append, List.flatMap_cons, ← hgroup]
    refine List.append_subset.2 ⟨?_, List.subset_append_of_subset_right _ (ih hrest)⟩
    exact List.subset_append_of_subset_left _ (List.map_subset _ List.filter_sublist.subset)

end Pool

namespace Subtraction.Planned

variable {early : Pool} {targets subtrahends : List RegId} {minuend : RegId} {constant pivot : Nat}
  {limbs others : List Limb} {plan : Subtraction} {aligned : Bool} {stages : List Stage}
  {rs : RegisterFile}
  (h : Planned early targets minuend subtrahends constant pivot limbs others plan aligned stages)

include h

theorem reads_stages : reads stages ⊆ Limb.ids limbs ++ Limb.ids others := by
  intro id hid
  obtain ⟨stage, hstage, hid⟩ := List.mem_flatMap.1 hid
  rcases List.mem_cons.1 hid with rfl | hid
  · exact List.mem_append_left _ (List.mem_map_of_mem (h.minuend_mem hstage))
  · rw [h.subtracted_eq hstage] at hid
    obtain ⟨limb, hlimb, rfl⟩ := List.mem_map.1 hid
    exact List.mem_append_right _
      (List.mem_map_of_mem (List.mem_filter.1 (List.mem_filter.1 hlimb).1).1)

variable (hs : early.Splits rs)

include hs

omit hs in
/-- Without bits there is no target before the pivot. -/
theorem low_of_zero (hpivot : subPivot targets rs (rs.widthOf minuend) = some pivot)
    (hwidth : plan.width = rs.widthOf minuend) (hzero : plan.width = 0) :
    ∀ stage ∈ stages, stage.low = none := by
  intro stage hstage
  rw [← hwidth, hzero, subPivot, if_pos rfl, Option.some.injEq] at hpivot
  have hnil : plan.low = [] := by
    have hids := h.low_laid.ids_eq
    rw [← hpivot] at hids
    simpa using hids
  cases hid : stage.low with
  | none => rfl
  | some id =>
    obtain ⟨limb, hlimb, -⟩ := h.low_mem hstage hid
    rw [hnil] at hlimb
    cases hlimb

theorem assignable (hsub : rs.Subtractable targets minuend subtrahends constant pivot)
    (hwidth : plan.width = rs.widthOf minuend)
    (hinput : ∀ id ∈ targets, rs.isInput id = false) :
    plan.Assignable early.registers stages := by
  have hlow := h.low_laid.notInput hs fun id hid => hinput id (List.mem_of_mem_take hid)
  refine ⟨fun stage hstage id hid => ?_, ?_, h.low_of_zero hsub.pivot_eq hwidth⟩
  · obtain ⟨limb, hlimb, rfl, -, -⟩ := h.low_mem hstage hid
    exact hlow _ (List.mem_map_of_mem hlimb)
  · exact h.high_laid.notInput hs fun id hid => hinput id (List.mem_of_mem_drop hid)

/-- The stages and the high targets are together as wide as the targets. -/
theorem sum_targets (hsub : rs.Subtractable targets minuend subtrahends constant pivot) :
    (stages.map fun stage => stage.minuend.width).sum + (plan.high.map Limb.width).sum =
      (rs.widths targets).sum := by
  have hminuend : (stages.map fun stage => stage.minuend.width).sum = rs.widthOf minuend := by
    rw [← h.sum_widths hs, ← h.map_minuend, List.map_map]
    rfl
  rw [hminuend, h.high_laid.sum_width hs, ← hsub.width_eq, ← List.sum_append,
    ← RegisterFile.widths_append, List.take_append_drop]

theorem reads_above : ∀ id ∈ Term.reads plan.above,
    0 < early.registers.widthOf id ∧ id ∈ Limb.ids others := by
  intro id hid
  obtain ⟨term, hterm, hid⟩ := List.mem_flatMap.1 hid
  rw [h.above_eq] at hterm
  obtain ⟨limb, hlimb, rfl⟩ := List.mem_map.1 hterm
  have hmem := (List.mem_filter.1 hlimb).1
  obtain ⟨hpos, id', own, hown, hlimb⟩ := Pool.mem_limbsOfEach h.others_eq limb hmem
  rw [List.mem_singleton.1 hid, ← (hs.isLimb hown limb hlimb).width_eq]
  exact ⟨hpos, List.mem_map_of_mem hmem⟩

end Subtraction.Planned

/-- A subtraction reads the limbs of its sources and writes the limbs of its targets. -/
theorem splitSubtraction_emits {site : Site} {targets subtrahends : List RegId} {minuend : RegId}
    {constant pivot : Nat} {early later : Pool} {codes : List Microcode}
    (h : splitSubtraction site targets (minuend :: subtrahends) constant early = .ok codes later)
    (hs : early.Splits site.registers) (hsize : ∀ id, site.registers.widthOf id < Word.modulus)
    (hsub : site.registers.Subtractable targets minuend subtrahends constant pivot)
    (hinput : ∀ id ∈ targets, site.registers.isInput id = false)
    (htotal : (site.registers.widths targets).sum < Word.modulus) :
    early.Emits later ((minuend :: subtrahends).flatMap early.group) (targets.flatMap early.group)
      codes := by
  unfold splitSubtraction at h
  obtain ⟨⟨plan, aligned, stages⟩, mid, hask, hcodes⟩ := estate_bind_ok.1 h
  obtain ⟨hplan, rfl⟩ := Pool.asking_ok.1 hask
  obtain ⟨hwidth, limbs, others, hplan⟩ := Pool.planSubtraction_ok hs hsub hsize hplan
  have hne : stages ≠ [] := by
    rintro rfl
    exact hplan.limbs_ne_nil hs hplan.map_minuend.symm
  have hlows : stages.filterMap Stage.low = if aligned then Limb.ids plan.low else [] := by
    cases aligned with
    | true => exact hplan.filterMap_low rfl
    | false => exact hplan.filterMap_low_eq_nil rfl
  have hemits := Subtraction.codes_emit hcodes (hplan.ready hs hsub hwidth hsize)
    (hplan.assignable hs hsub hwidth hinput) hne
    (hplan.low_laid.placed hs (hsub.nodup.sublist (List.take_sublist _ _)) hsub.low.size)
    (hplan.low_laid.notInput hs fun id hid => hinput id (List.mem_of_mem_take hid)) hlows
    (hplan.apart hs hsub) (fun id hid => (hplan.reads_above hs id hid).1)
    (by rw [hplan.sum_targets hs hsub]; exact htotal)
  rw [hplan.low_laid.ids_eq, hplan.high_laid.ids_eq, ← List.flatMap_append,
    List.take_append_drop] at hemits
  -- limbs of the sources are read, by the stages or above them
  have hothers := Pool.limbsOfEach_ids hs hsize hplan.others_eq
  have hsources : Limb.ids limbs ++ Limb.ids others ⊆
      (minuend :: subtrahends).flatMap early.group := by
    rw [hplan.limbs_laid.ids_eq, List.flatMap_singleton, List.flatMap_cons]
    exact List.append_subset.2 ⟨List.subset_append_left _ _,
      List.subset_append_of_subset_right _ hothers⟩
  apply hemits.mono_reads
  refine List.append_subset.2 ⟨List.Subset.trans hplan.reads_stages hsources, fun id hid => ?_⟩
  exact hsources (List.mem_append_right _ (hplan.reads_above hs id hid).2)

/-! ## Sums -/

theorem Pool.HasLimb.mem_group {pool : Pool} {rs : RegisterFile} {id limbId : RegId}
    (h : pool.HasLimb id limbId) (hs : pool.Splits rs) (hsize : rs.widthOf id < Word.modulus) :
    limbId ∈ pool.group id ∧ 0 < pool.registers.widthOf limbId := by
  obtain ⟨own, hown, limb, hlimb, rfl, hpos⟩ := h
  have hlaid := hs.laidOut (by simpa using hsize) hown
  constructor
  · have hmem : limb.id ∈ Limb.ids own := List.mem_map_of_mem hlimb
    rwa [hlaid.ids_eq, List.flatMap_singleton] at hmem
  · rwa [← (hs.isLimb hown limb hlimb).width_eq]

/-- A sum reads the limbs of what it reads and writes the limbs of its targets. -/
theorem splitPolynomial_emits {site : Site} {targets : List RegId} {rhs : Polynomial}
    {early later : Pool} {codes : List Microcode} {rs : RegisterFile}
    (h : splitPolynomial site targets rhs early = .ok codes later) (hs : early.Splits rs)
    (hsize : ∀ id, rs.widthOf id < Word.modulus) (ht : rs.Storable targets)
    (hinput : ∀ id ∈ targets, rs.isInput id = false) :
    early.Emits later (rhs.registers.flatMap early.group) (targets.flatMap early.group) codes := by
  obtain ⟨layout, terms, hlayout, hterms, h⟩ := splitPolynomial_ok h
  have hlaid := hs.laidOut ht.size hlayout
  have hreads : ∀ id ∈ Term.reads terms,
      id ∈ rhs.registers.flatMap early.group ∧ 0 < early.registers.widthOf id := by
    intro limbId hlimb
    obtain ⟨term, hterm, hvar⟩ := List.mem_flatMap.1 hlimb
    obtain ⟨m, hm, id, hid, hlimb⟩ := Pool.terms_limbs hterms term hterm limbId hvar
    obtain ⟨hgroup, hpos⟩ := hlimb.mem_group hs (hsize id)
    exact ⟨List.mem_flatMap.2 ⟨id, Polynomial.mem_registers.2 ⟨m, hm, hid⟩, hgroup⟩,
      hpos⟩
  have hemits := distribute_emits h (hlaid.placed hs ht.nodup ht.size) (hlaid.notInput hs hinput)
    fun id hid => (hreads id hid).2
  rw [hlaid.ids_eq] at hemits
  exact hemits.mono_reads fun id hid => (hreads id hid).1

/-! ## Casts -/

namespace Piece

variable {pool early later : Pool} {moves : List (Piece × RegId)} {move : Piece × RegId}
  {limbs targets : List Limb} {pieces : List Piece} {slots : List (Limb × Nat)} {ids : List RegId}

theorem Movable.proper {rs : RegisterFile} (h : Movable rs (move :: moves))
    (hinput : rs.isInput move.2 = false) : (moved move).Proper rs := by
  have hmem : move ∈ move :: moves := List.mem_cons_self
  have hsource := h.source move hmem
  have htarget := h.target move hmem
  unfold moved copyTo
  split
  · rename_i hwhole
    refine .copy hsource htarget hinput ?_ (h.size move hmem)
    rw [← h.whole move hmem, ← hwhole]
    exact h.room move hmem
  · refine ⟨?_, ?_, List.nodup_singleton _, ?_, h.kept_le move hmem, ?_⟩
    · simp [Microcode.operands, Microcode.targets, hsource, htarget]
    · simpa [Microcode.targets] using hinput
    · simpa [Microcode.targets] using h.size move hmem
    · simpa using h.room move hmem

theorem operands_moved (move : Piece × RegId) : (moved move).operands = [move.1.limb.id] := by
  unfold moved copyTo
  split
  · exact Polynomial.registers_var _
  · rfl

theorem targets_moved (move : Piece × RegId) : (moved move).targets = [move.2] := by
  unfold moved copyTo
  split
  · rfl
  · rfl

/-- Moves read their pieces and write their targets. -/
theorem moves_emit (h : Movable pool.registers moves)
    (hinput : ∀ move ∈ moves, pool.registers.isInput move.2 = false) :
    pool.Emits pool (moves.map fun move => move.1.limb.id) (moves.map Prod.snd)
      (moves.map moved) := by
  induction moves with
  | nil => exact .nil pool []
  | cons move moves ih =>
    have hfirst : pool.Emits pool ((move :: moves).map fun move => move.1.limb.id) [move.2]
        [moved move] := by
      refine .single (.refl pool) (h.proper (hinput move List.mem_cons_self)) ?_ ?_ ?_
      · simp [operands_moved]
      · rw [targets_moved]
        exact List.Subset.refl _
      · rw [targets_moved]
        exact fun id hid => .inl hid
    refine hfirst.append (ih h.tail fun move' hmem => hinput move' (List.mem_cons_of_mem _ hmem))
      ?_ ?_ ?_
    · exact List.subset_append_of_subset_left _ (List.subset_cons_self _ _)
    · exact List.singleton_disjoint.2 (List.nodup_cons.1 h.nodup).1
    · intro id hid
      obtain ⟨move', hmem, rfl⟩ := List.mem_map.1 hid
      exact h.target move' (List.mem_cons_of_mem _ hmem)

/-- Clearing reads nothing. -/
theorem clear_emits (hnd : ids.Nodup) (hdecl : ∀ id ∈ ids, pool.registers.declares id = true)
    (hinput : ∀ id ∈ ids, pool.registers.isInput id = false)
    (hsize : ∀ id ∈ ids, pool.registers.widthOf id < Word.modulus) :
    pool.Emits pool [] ids (ids.map fun id => .assign [id] .zero) := by
  induction ids with
  | nil => exact .nil pool []
  | cons id ids ih =>
    have hproper : (Microcode.assign [id] .zero).Proper pool.registers := by
      refine ⟨?_, ?_, List.nodup_singleton _, ?_, Nat.zero_le _⟩
      · simpa [Microcode.operands, Microcode.targets, Polynomial.zero, Polynomial.registers] using
          hdecl id List.mem_cons_self
      · simpa [Microcode.targets] using hinput id List.mem_cons_self
      · simpa [Microcode.targets] using hsize id List.mem_cons_self
    have hfirst : pool.Emits pool [] [id] [.assign [id] .zero] :=
      .single (.refl pool) hproper (List.nil_subset _) (List.Subset.refl _) fun id hid => .inl hid
    have hrest :=
      ih (List.nodup_cons.1 hnd).2 (fun id' hid' => hdecl id' (List.mem_cons_of_mem _ hid'))
      (fun id' hid' => hinput id' (List.mem_cons_of_mem _ hid'))
      fun id' hid' => hsize id' (List.mem_cons_of_mem _ hid')
    exact hfirst.append hrest (List.nil_subset _)
      (List.singleton_disjoint.2 (List.nodup_cons.1 hnd).1)
      fun id' hid' => hdecl id' (List.mem_cons_of_mem _ hid')

/-- Pieces are copied to their slots, and the other limbs are cleared. -/
theorem copies_emit (hmovable : Movable pool.registers (toSlots pieces slots))
    (hplaced : Limb.Placed pool.registers targets)
    (hinput : ∀ id ∈ Limb.ids targets, pool.registers.isInput id = false)
    (hslots : List.Forall₂ (fun piece slot => piece.slot? targets = some slot) pieces slots) :
    pool.Emits pool (pieces.map fun piece => piece.limb.id) (Limb.ids targets)
      (copies pieces slots targets) := by
  have hmem := slots_mem hslots
  have hids := map_snd_toSlots hslots
  have hslotIds : (slots.map fun slot => slot.1.id) ⊆ Limb.ids targets := by
    intro id hid
    obtain ⟨slot, hslot, rfl⟩ := List.mem_map.1 hid
    exact List.mem_map_of_mem (List.fst_mem_of_mem_zipIdx (hmem slot hslot))
  have hidle : ∀ id ∈ (idle slots targets).map fun slot => slot.1.id,
      id ∈ Limb.ids targets ∧ id ∉ slots.map fun slot => slot.1.id :=
    fun id hid => mem_idle hplaced.nodup hmem hid
  have hmoves := moves_emit hmovable fun move hmove =>
    hinput _ (hslotIds (hids ▸ List.mem_map_of_mem hmove))
  have hnodup : ((idle slots targets).map fun slot => slot.1.id).Nodup := by
    have hall : (targets.zipIdx.map fun slot => slot.1.id).Nodup := by
      have hnd := hplaced.nodup
      rwa [← List.zipIdx_map_fst 0 targets, List.map_map] at hnd
    exact hall.sublist (List.filter_sublist.map _)
  have hclear : pool.Emits pool [] _ _ := clear_emits hnodup
    (fun id hid => hplaced.declared id (hidle id hid).1) (fun id hid => hinput id (hidle id hid).1)
    fun id hid => hplaced.width_lt id (hidle id hid).1
  rw [hids] at hmoves
  rw [copies_eq]
  have hboth := hmoves.append hclear (List.nil_subset _)
    (fun id hid hid' => (hidle id hid').2 hid) fun id hid => hplaced.declared id (hidle id hid).1
  refine (hboth.mono_reads ?_).retarget ?_ ?_
  · intro id hid
    obtain ⟨move, hmove, rfl⟩ := List.mem_map.1 hid
    obtain ⟨pair, hpair, rfl⟩ := List.mem_map.1 hmove
    exact List.mem_map_of_mem (List.of_mem_zip hpair).1
  · intro id hid
    obtain ⟨limb, hlimb, rfl⟩ := List.mem_map.1 hid
    obtain ⟨i, hi⟩ := List.mem_iff_getElem?.1 hlimb
    have hslot : (limb, i) ∈ targets.zipIdx := List.mem_zipIdx_iff_getElem?.2 hi
    by_cases hin : i ∈ slots.map Prod.snd
    · obtain ⟨slot, hslot', rfl⟩ := List.mem_map.1 hin
      refine List.mem_append_left _ (List.mem_map.2 ⟨slot, hslot', ?_⟩)
      have hsame := List.mem_zipIdx_iff_getElem?.1 (hmem slot hslot')
      rw [hi, Option.some.injEq] at hsame
      rw [hsame]
    · refine List.mem_append_right _ (List.mem_map.2 ⟨(limb, i),
        List.mem_filter.2 ⟨hslot, ?_⟩, rfl⟩)
      simpa using hin
  · exact List.append_subset.2 ⟨hslotIds, fun id hid => (hidle id hid).1⟩

/-- Kept pieces are read and the target limbs written. -/
theorem move_emits {site : Site} {codes : List Microcode} {source : RegId} {rs' : RegisterFile}
    (h : Piece.move site pieces targets early = .ok codes later) (hs : early.Splits rs')
    (hkept : KeptOf early.registers limbs pieces) (hlimbs : early.LaidOut [source] limbs)
    (hsize : ∀ piece ∈ pieces, piece.limb.width < Word.modulus)
    (htargets : early.LaidOut ids targets) (hplaced : Limb.Placed early.registers targets)
    (hinput : ∀ id ∈ Limb.ids targets, early.registers.isInput id = false) :
    early.Emits later (pieces.map fun piece => piece.limb.id) (Limb.ids targets) codes := by
  rcases move_ok h with ⟨slots, hslots, rfl, rfl⟩ | ⟨casts, terms, mid, moved, hgather,
    hmoved, rfl⟩
  · have hslots := mapM_slot?_eq_some hslots
    exact copies_emit (movable_toSlots hs hkept hlimbs htargets hplaced hslots) hplaced
      hinput hslots
  · obtain ⟨moves, rfl, hgrows, hmovable, hmoves, hterms⟩ := gather_ok hgather hkept hsize
    have hpre := hgrows.registers
    have hcasts := moves_emit hmovable fun move hmove => hgrows.isInput_new (hmoves move hmove).2
    have hfresh := hcasts.of_fresh hgrows fun id hid => by
      obtain ⟨move, hmove, rfl⟩ := List.mem_map.1 hid
      exact (hmoves move hmove).2
    have hreads : (moves.map fun move => move.1.limb.id) ⊆ pieces.map fun piece =>
      piece.limb.id := by
      intro id hid
      obtain ⟨move, hmove, rfl⟩ := List.mem_map.1 hid
      exact List.mem_map_of_mem (hmoves move hmove).1
    -- a gathered term reads a whole piece or what one was cast to
    have hgathered : ∀ id ∈ Term.reads terms, 0 < mid.registers.widthOf id ∧
        id ∈ (pieces.map fun piece => piece.limb.id) ++ allWrites (moves.map Piece.moved) := by
      intro id hid
      obtain ⟨term, hterm, hid⟩ := List.mem_flatMap.1 hid
      obtain ⟨piece, hpiece, ⟨hwhole, rfl⟩ | hmove⟩ :=
        gathered_cases hterms term hterm id hid
      · refine ⟨?_, List.mem_append_left _ (List.mem_map_of_mem hpiece)⟩
        rw [RegisterFile.widthOf_mono hpre (hkept.declared piece hpiece),
          ← hkept.width_eq piece hpiece, ← hwhole]
        exact hkept.pos piece hpiece
      · refine ⟨(hkept.pos piece hpiece).trans_le (hmovable.room _ hmove), ?_⟩
        exact List.mem_append_right _ (hcasts.all (List.mem_map_of_mem hmove))
    have hdistributed := distribute_emits hmoved (hplaced.mono hpre)
      (fun id hid => by
        rw [RegisterFile.isInput_mono hpre (hplaced.declared id hid)]
        exact hinput id hid)
      fun id hid => (hgathered id hid).1
    exact (hfresh.mono_reads hreads).append hdistributed (fun id hid => (hgathered id hid).2)
      (List.disjoint_nil_left _) hplaced.declared

end Piece

end LimbMachine
