import LimbMachine.Proofs.Split.Equations
import LimbMachine.Split.Borrows

/-!
# Chains of subtraction stages

A stage takes a limb of the minuend, what is subtracted from it and the borrow of the stage before,
and leaves a difference and a borrow that balance. Weighted by where the stages stand the borrows
cancel (`Subtraction.stages_run`): the differences together and the last borrow balance the whole
subtraction.
-/

namespace LimbMachine

/-- A subtraction leaves a difference and a borrow that balance. -/
theorem Microcode.sub_runs {s : State} {targets subtrahends : List RegId} {minuend : RegId}
    {constant pivot : Nat} (hs : s.Fits)
    (h : s.registers.Subtractable targets minuend subtrahends constant pivot) :
    ∃ s₁, (Microcode.sub targets (minuend :: subtrahends) constant).Does s (.skip 1) s₁ ∧
      (∀ known, s.Touches known targets s₁) ∧
      Balances (s.load minuend) (constant + (subtrahends.map s.load).sum)
        (s.registers.widthOf minuend) (s₁.packed (targets.take pivot))
        (s₁.packed (targets.drop pivot)) := by
  have hrun : (Microcode.sub targets (minuend :: subtrahends) constant).Runnable s.registers :=
    ⟨minuend, subtrahends, pivot, rfl, h⟩
  obtain ⟨s₁, hdoes, hassigned, htakes⟩ := Microcode.does_effect rfl hrun hs
  exact ⟨s₁, hdoes, fun known => hassigned.touches hs htakes, hassigned.balances hs h⟩

theorem State.sum_map_listed (s : State) (id : RegId) : (id.listed.map s.load).sum = s.load id := by
  cases hu : id.isUsed with
  | true => simp [RegId.listed, hu]
  | false => simp [RegId.eq_unused hu, RegId.listed, RegId.isUsed]

/-- The first target takes the difference when it is as wide as the minuend. -/
theorem subPivot_listed {rs : RegisterFile} {d : RegId} {width : Nat} (tail : List RegId)
    (hwidth : rs.widthOf d = width) (hused : d.isUsed = true ↔ 0 < width)
    (hsize : width < Word.modulus) :
    subPivot (d.listed ++ tail) rs width = some d.listed.length := by
  unfold subPivot
  split
  · rename_i hzero
    have hu : d.isUsed = false := by
      rw [← Bool.not_eq_true, hused]
      omega
    simp [RegId.listed, hu]
  · rename_i hpos
    have hu : d.isUsed = true := hused.2 (by omega)
    have hadd : Word.add 0 width = width := by rw [Word.add_eq (by omega), Nat.zero_add]
    simp [RegId.listed, hu, pivotFrom, hwidth, hadd]

theorem RegisterFile.Storable.subtractable {rs : RegisterFile} {d minuend : RegId}
    {tail others : List RegId} {constant : Nat} (htail : rs.Storable tail) (hd : rs.Knows d)
    (hwidth : rs.widthOf d = rs.widthOf minuend)
    (hused : d.isUsed = true ↔ 0 < rs.widthOf minuend) (hsize : rs.widthOf minuend < Word.modulus)
    (hnot : d.isUsed = true → d ∉ tail)
    (hborrow :
    bitLength (borrowsFor (constant + (others.map rs.maxOf).sum) (rs.widthOf minuend)) ≤
      (rs.widths tail).sum) :
    rs.Subtractable (d.listed ++ tail) minuend others constant d.listed.length := by
  have hlisted := hd.storable (by rw [hwidth]; exact hsize)
  refine ⟨hlisted.nodup.append htail.nodup ?_, subPivot_listed tail hwidth hused hsize, ?_,
    ?_, ?_, ?_⟩
  · intro id hid hid'
    obtain ⟨rfl, hu⟩ := RegId.mem_listed.1 hid
    exact hnot hu hid'
  · rw [List.take_left, sum_widths_listed, hwidth]
  · rw [List.take_left]
    exact hlisted
  · rw [List.drop_left]
    exact htail
  · rw [List.drop_left]
    exact bitLength_le_iff.1 hborrow

/-- What a stage subtracts, apart from the borrow that enters it. -/
def Stage.taken (load : RegId → Nat) (stage : Stage) : Nat :=
  stage.constant + (stage.subtracted.map load).sum

/-- How wide the borrow of a stage can get. -/
def Stage.borrowBits (stage : Stage) (rs : RegisterFile) (borrow : RegId) : Nat :=
  bitLength (borrowsFor (stage.constant +
    ((stage.subtracted ++ borrow.listed).map rs.maxOf).sum) stage.minuend.width)

theorem Stage.borrowBits_mono {stage : Stage} {rs later : RegisterFile} {borrow : RegId}
    (hpre : rs <+: later) (hsub : ∀ id ∈ stage.subtracted, rs.declares id = true)
    (hborrow : rs.Knows borrow) : stage.borrowBits later borrow = stage.borrowBits rs borrow := by
  have hmax : (stage.subtracted ++ borrow.listed).map later.maxOf =
      (stage.subtracted ++ borrow.listed).map rs.maxOf := by
    refine List.map_congr_left fun id hid => ?_
    rcases List.mem_append.1 hid with hid | hid
    · exact (RegisterFile.Knows.of_declares (hsub id hid)).maxOf_eq hpre
    · rw [(RegId.mem_listed.1 hid).1]
      exact hborrow.maxOf_eq hpre
  rw [borrowBits, borrowBits, hmax]

theorem Stage.taken_congr {f g : RegId → Nat} {stage : Stage}
    (h : ∀ id ∈ stage.subtracted, f id = g id) : stage.taken f = stage.taken g := by
  rw [taken, taken, List.map_congr_left h]

/-- The number whose digits at the limbs of the minuend are given stage by stage. -/
def Stage.joined (digit : Stage → Nat) (stages : List Stage) : Nat :=
  Digits.join (stages.map fun stage => stage.minuend.width) (stages.map digit)

theorem Stage.joined_cons (digit : Stage → Nat) (stage : Stage) (rest : List Stage) :
    joined digit (stage :: rest) = digit stage + 2 ^ stage.minuend.width * joined digit rest := rfl

theorem Stage.joined_congr {f g : Stage → Nat} {stages : List Stage}
    (h : ∀ stage ∈ stages, f stage = g stage) : joined f stages = joined g stages := by
  rw [joined, joined, List.map_congr_left h]

theorem Stage.joined_add (f g : Stage → Nat) (stages : List Stage) :
    joined (fun stage => f stage + g stage) stages = joined f stages + joined g stages := by
  induction stages with
  | nil => rfl
  | cons stage rest ih =>
    rw [joined_cons, joined_cons, joined_cons, ih]
    ring

namespace Subtraction

variable {plan : Subtraction} {pool later : Pool} {stage : Stage} {stages : List Stage}
  {borrow next : RegId} {code : Microcode} {codes : List Microcode} {scratch : List Term}

/-- Stages that can be run in order: registers and widths are as the plan says, and no stage reads
what an earlier one writes. -/
structure Ready (plan : Subtraction) (rs : RegisterFile) (stages : List Stage) : Prop where
  minuend : ∀ stage ∈ stages, rs.declares stage.minuend.id = true
  width_eq : ∀ stage ∈ stages, stage.minuend.width = rs.widthOf stage.minuend.id
  size : ∀ stage ∈ stages, stage.minuend.width < Word.modulus
  zero_iff : ∀ stage ∈ stages, stage.minuend.width = 0 ↔ plan.width = 0
  subtracted : ∀ stage ∈ stages, ∀ id ∈ stage.subtracted, rs.declares id = true
  low : ∀ stage ∈ stages, ∀ id, stage.low = some id →
    rs.declares id = true ∧ rs.widthOf id = stage.minuend.width
  nodup : (stages.filterMap Stage.low).Nodup
  high : Limb.Placed rs plan.high
  apart : (stages.filterMap Stage.low).Disjoint (Limb.ids plan.high)
  ordered : stages.Pairwise fun stage later => ∀ id, stage.low = some id →
    id ≠ later.minuend.id ∧ id ∉ later.subtracted

theorem Ready.tail (h : plan.Ready pool.registers (stage :: stages)) :
    plan.Ready pool.registers stages where
  minuend := fun stage' hmem => h.minuend stage' (List.mem_cons_of_mem _ hmem)
  width_eq := fun stage' hmem => h.width_eq stage' (List.mem_cons_of_mem _ hmem)
  size := fun stage' hmem => h.size stage' (List.mem_cons_of_mem _ hmem)
  zero_iff := fun stage' hmem => h.zero_iff stage' (List.mem_cons_of_mem _ hmem)
  subtracted := fun stage' hmem => h.subtracted stage' (List.mem_cons_of_mem _ hmem)
  low := fun stage' hmem => h.low stage' (List.mem_cons_of_mem _ hmem)
  nodup := h.nodup.sublist ((List.sublist_cons_self stage stages).filterMap _)
  high := h.high
  apart := fun _ hid => h.apart (((List.sublist_cons_self stage stages).filterMap _).subset hid)
  ordered := (List.pairwise_cons.1 h.ordered).2

theorem Ready.mono {rs later : RegisterFile} (h : plan.Ready rs stages) (hpre : rs <+: later) :
    plan.Ready later stages where
  minuend := fun stage hmem => RegisterFile.declares_mono hpre (h.minuend stage hmem)
  width_eq := fun stage hmem => by
    rw [h.width_eq stage hmem, RegisterFile.widthOf_mono hpre (h.minuend stage hmem)]
  size := h.size
  zero_iff := h.zero_iff
  subtracted := fun stage hmem id hid =>
    RegisterFile.declares_mono hpre (h.subtracted stage hmem id hid)
  low := fun stage hmem id hid => by
    obtain ⟨hdecl, hwidth⟩ := h.low stage hmem id hid
    exact ⟨RegisterFile.declares_mono hpre hdecl, by rw [RegisterFile.widthOf_mono hpre hdecl,
      hwidth]⟩
  nodup := h.nodup
  high := h.high.mono hpre
  apart := h.apart
  ordered := h.ordered

/-- Where a stage leaves its difference: in its low target, or in a register of its own. -/
structure Differs (plan : Subtraction) (stage : Stage) (pool : Pool) (d : RegId)
    (scratch : List Term) (later : Pool) : Prop where
  grows : pool.Extends later
  known : later.registers.Knows d
  width_eq : later.registers.widthOf d = stage.minuend.width
  used_iff : d.isUsed = true ↔ 0 < stage.minuend.width
  own : pool.registers.declares d = true → stage.low = some d
  low : ∀ id, stage.low = some id → d = id ∨ stage.minuend.width = 0
  scratch_eq : scratch = if stage.low.isSome then [] else
    d.listed.map fun id => Term.ofLimb id stage.minuend.offset

/-- A stage without bits needs no target; else it has a low target, or a register is allocated. -/
theorem difference_cases {targets : List RegId}
    (h : plan.difference stage pool = .ok (targets, scratch) later) :
    (plan.width = 0 ∧ targets = [] ∧ scratch = [] ∧ pool = later) ∨
    (plan.width ≠ 0 ∧ ∃ id, stage.low = some id ∧ targets = [id] ∧ scratch = [] ∧
      pool = later) ∨
    (plan.width ≠ 0 ∧ stage.low = none ∧ ∃ d,
      Pool.allocate "tmp" stage.minuend.width pool = .ok d later ∧ targets = d.listed ∧
      scratch = d.listed.map fun id => Term.ofLimb id stage.minuend.offset) := by
  unfold difference at h
  split at h
  · rename_i hwidth
    obtain ⟨heq, rfl⟩ := estate_pure_ok.1 h
    cases heq
    exact .inl ⟨hwidth, rfl, rfl, rfl⟩
  · rename_i hwidth
    cases hlow : stage.low with
    | some id =>
      rw [hlow] at h
      obtain ⟨heq, rfl⟩ := estate_pure_ok.1 h
      cases heq
      exact .inr (.inl ⟨hwidth, id, rfl, rfl, rfl, rfl⟩)
    | none =>
      rw [hlow] at h
      obtain ⟨d, mid, halloc, h⟩ := estate_bind_ok.1 h
      obtain ⟨heq, rfl⟩ := estate_pure_ok.1 h
      refine .inr (.inr ⟨hwidth, rfl, d, halloc, ?_⟩)
      cases hu : d.isUsed with
      | true =>
        rw [hu, if_pos rfl] at heq
        cases heq
        simp [RegId.listed, hu]
      | false =>
        rw [hu, if_neg Bool.false_ne_true] at heq
        cases heq
        simp [RegId.listed, hu]

theorem difference_ok {targets : List RegId}
    (h : plan.difference stage pool = .ok (targets, scratch) later)
    (hready : plan.Ready pool.registers (stage :: stages)) :
    ∃ d, targets = d.listed ∧ plan.Differs stage pool d scratch later := by
  have hmem : stage ∈ stage :: stages := List.mem_cons_self
  have hzero := hready.zero_iff stage hmem
  rcases difference_cases h with ⟨hwidth, rfl, rfl, rfl⟩ |
    ⟨hwidth, id, hlow, rfl, rfl, rfl⟩ |
    ⟨-, hlow, d, halloc, rfl, rfl⟩
  · have hw := hzero.2 hwidth
    exact ⟨.unused, rfl, .refl pool, fun hu => (nomatch hu), hw.symm, by simp [RegId.isUsed, hw],
      fun hdecl => (nomatch hdecl), fun _ _ => .inr hw, by simp [RegId.listed, RegId.isUsed]⟩
  · have hpos : 0 < stage.minuend.width := Nat.pos_of_ne_zero fun hw => hwidth (hzero.1 hw)
    obtain ⟨hdecl, hw⟩ := hready.low stage hmem id hlow
    have hu : id.isUsed = true := by
      cases id with
      | unused => cases hdecl
      | reg i => rfl
    refine ⟨id, by simp [RegId.listed, hu], .refl pool, fun _ => hdecl, hw, by simp [hu, hpos],
      fun _ => hlow, fun id' hid' => .inl ?_, by simp [hlow]⟩
    rw [hlow] at hid'
    exact Option.some.inj hid'
  · have halloc := Pool.allocate_ok halloc
    refine ⟨d, rfl, halloc.grows, halloc.known, halloc.widthOf_eq, halloc.used_iff,
      fun hdecl => ?_, fun id hid => ?_, by simp [hlow]⟩
    · rw [halloc.fresh] at hdecl
      cases hdecl
    · rw [hlow] at hid
      cases hid

/-- The targets of a stage that take what it borrows. -/
def tail (plan : Subtraction) (isLast : Bool) (next : RegId) : List RegId :=
  if isLast && plan.above.isEmpty then Limb.ids plan.high else next.listed

/-- The targets of the whole subtraction among them. -/
def stored (plan : Subtraction) (isLast : Bool) : List RegId :=
  if isLast && plan.above.isEmpty then Limb.ids plan.high else []

/-- A stage takes its limb and the borrow, and stores its own borrow into the high targets if
nothing else is taken from them, and into a new register elsewhere. -/
theorem stage_cases {isLast : Bool}
    (h : plan.stage isLast borrow stage pool = .ok (code, scratch, next) later) :
    ∃ targets mid, plan.difference stage pool = .ok (targets, scratch) mid ∧
      code = .sub (targets ++ plan.tail isLast next)
        (stage.minuend.id :: (stage.subtracted ++ borrow.listed)) stage.constant ∧
      (((isLast && plan.above.isEmpty) = true ∧ next = borrow ∧ mid = later ∧
          stage.borrowBits pool.registers borrow ≤ Limb.total plan.high) ∨
        ((isLast && plan.above.isEmpty) = false ∧
          Pool.allocate "borrow" (stage.borrowBits pool.registers borrow) mid =
            .ok next later)) := by
  unfold Subtraction.stage at h
  rw [estate_get_bind] at h
  obtain ⟨⟨targets, scratch'⟩, mid, hdiff, h⟩ := estate_bind_ok.1 h
  unfold tail
  cases hlast : isLast && plan.above.isEmpty with
  | true =>
    simp only [hlast, if_true] at h
    by_cases hover : Limb.total plan.high < stage.borrowBits pool.registers borrow
    · simp only [Stage.borrowBits, RegId.listed] at hover
      simp only [hover, if_true] at h
      cases h
    · have hfits := Nat.not_lt.1 hover
      simp only [Stage.borrowBits, RegId.listed] at hover
      simp only [hover, if_false] at h
      obtain ⟨heq, rfl⟩ := estate_pure_ok.1 h
      cases heq
      exact ⟨targets, mid, hdiff, rfl, .inl ⟨rfl, rfl, rfl, hfits⟩⟩
  | false =>
    simp only [hlast, Bool.false_eq_true, if_false] at h
    obtain ⟨next', later', halloc, h⟩ := estate_bind_ok.1 h
    obtain ⟨heq, rfl⟩ := estate_pure_ok.1 h
    cases heq
    exact ⟨targets, mid, hdiff, rfl, .inr ⟨rfl, halloc⟩⟩

theorem stage_ok {isLast : Bool}
    (h : plan.stage isLast borrow stage pool = .ok (code, scratch, next) later)
    (hready : plan.Ready pool.registers (stage :: stages)) (hborrow : pool.registers.Knows borrow) :
    ∃ d mid, plan.Differs stage pool d scratch mid ∧ mid.Extends later ∧
      later.registers.Knows next ∧
      code = .sub (d.listed ++ plan.tail isLast next)
        (stage.minuend.id :: (stage.subtracted ++ borrow.listed)) stage.constant ∧
      stage.borrowBits pool.registers borrow ≤
        (later.registers.widths (plan.tail isLast next)).sum ∧
      (∀ id ∈ plan.tail isLast next, mid.registers.declares id = true →
        id ∈ plan.stored isLast) ∧
      (stage.borrowBits pool.registers borrow < Word.modulus →
        later.registers.Storable (plan.tail isLast next)) ∧
      (plan.above ≠ [] → mid.registers.declares next = false) := by
  obtain ⟨targets, mid, hdiff, rfl, hcase⟩ := stage_cases h
  obtain ⟨d, rfl, hd⟩ := difference_ok hdiff hready
  refine ⟨d, mid, hd, ?_⟩
  unfold tail stored
  rcases hcase with ⟨hlast, rfl, rfl, hbits⟩ | ⟨hlast, halloc⟩
  · have hplaced := hready.high.mono hd.grows.registers
    simp only [hlast, if_true, true_and]
    refine ⟨.refl mid, hborrow.mono hd.grows.registers, ?_, fun _ hid _ => hid,
      fun _ => ⟨hplaced.nodup, fun id hid _ => hplaced.declared id hid, ?_⟩, fun habove => ?_⟩
    · rw [Limb.total, Word.sum_eq hplaced.size, hplaced.contiguous.map_width] at hbits
      exact hbits
    · rw [← hplaced.contiguous.map_width]
      exact hplaced.size
    · rw [Bool.and_eq_true, List.isEmpty_iff] at hlast
      exact absurd hlast.2 habove
  · have halloc := Pool.allocate_ok halloc
    simp only [hlast, Bool.false_eq_true, if_false, true_and]
    refine ⟨halloc.grows, halloc.known, ?_, fun id hid hdecl => ?_, fun hsize => ?_,
      fun _ => halloc.fresh⟩
    · rw [RegisterFile.sum_widths_listed, halloc.widthOf_eq]
    · rw [(RegId.mem_listed.1 hid).1, halloc.fresh] at hdecl
      cases hdecl
    · exact halloc.known.storable (by rw [halloc.widthOf_eq]; exact hsize)

namespace Differs

variable {mid : Pool} {d : RegId} {s : State}

theorem not_mem_stored {isLast : Bool} (hd : plan.Differs stage pool d scratch mid)
    (hready : plan.Ready pool.registers (stage :: stages)) : d ∉ plan.stored isLast := by
  intro hmem
  unfold stored at hmem
  split at hmem
  · have hlow := hd.own (hready.high.declared d hmem)
    refine hready.apart ?_ hmem
    rw [List.filterMap_cons_some hlow]
    exact List.mem_cons_self
  · cases hmem

/-- No later stage writes the difference. -/
theorem not_mem_lows (hd : plan.Differs stage pool d scratch mid)
    (hready : plan.Ready pool.registers (stage :: stages)) : d ∉ stages.filterMap Stage.low := by
  intro hmem
  obtain ⟨stage', hstage', hlow'⟩ := List.mem_filterMap.1 hmem
  have hlow := hd.own (hready.low stage' (List.mem_cons_of_mem _ hstage') d hlow').1
  have hnodup := hready.nodup
  rw [List.filterMap_cons_some hlow, List.nodup_cons] at hnodup
  exact hnodup.1 hmem

/-- What runs after a stage and stores where the later stages do keeps the difference. -/
theorem load_kept {known : RegisterFile} {s₁ : State} {isLast : Bool}
    (hd : plan.Differs stage pool d scratch mid)
    (hready : plan.Ready pool.registers (stage :: stages)) (hpre : mid.registers <+: known)
    (htouch : s.Touches known (stages.filterMap Stage.low ++ plan.stored isLast) s₁) :
    s₁.load d = s.load d := by
  cases hu : d.isUsed with
  | false => rw [RegId.eq_unused hu, State.load_unused, State.load_unused]
  | true =>
    refine htouch.frame d (hd.known.mono hpre hu) fun hmem => ?_
    rcases List.mem_append.1 hmem with hmem | hmem
    · exact hd.not_mem_lows hready hmem
    · exact hd.not_mem_stored hready hmem

theorem load_low (hd : plan.Differs stage pool d scratch mid)
    (hready : plan.Ready pool.registers (stage :: stages)) (hs : s.Fits)
    (hpre : mid.registers <+: s.registers) {id : RegId} (hlow : stage.low = some id) :
    s.load id = s.load d := by
  rcases hd.low id hlow with rfl | hzero
  · rfl
  · -- both registers are without bits
    obtain ⟨hdecl, hwidth⟩ := hready.low stage List.mem_cons_self id hlow
    have hid := hs.load_lt id
    have hd' := hs.load_lt d
    rw [RegisterFile.widthOf_mono (hd.grows.registers.trans hpre) hdecl, hwidth, hzero] at hid
    rw [hd.known.widthOf_eq hpre, hd.width_eq, hzero] at hd'
    omega

theorem sum_scratch (hd : plan.Differs stage pool d scratch mid) (hlow : stage.low = none)
    (load : RegId → Nat) (hunused : load .unused = 0) :
    (scratch.map (Term.value load)).sum = 2 ^ stage.minuend.offset * load d := by
  rw [hd.scratch_eq, hlow]
  cases hu : d.isUsed with
  | true => simp [RegId.listed, hu, Term.value, Term.ofLimb, Monomial.eval]
  | false => simp [RegId.eq_unused hu, RegId.listed, RegId.isUsed, hunused]

theorem vars_scratch (hd : plan.Differs stage pool d scratch mid) {term : Term}
    (hterm : term ∈ scratch) : ∀ id ∈ term.monomial.vars, mid.registers.Knows id := by
  rw [hd.scratch_eq] at hterm
  split at hterm
  · cases hterm
  · obtain ⟨id', hid', rfl⟩ := List.mem_map.1 hterm
    intro id hid
    rw [(RegId.mem_listed.1 hid').1] at hid
    rw [List.mem_singleton.1 hid]
    exact hd.known

end Differs

/-- A stage balances its limb, what it takes from it and the two borrows. -/
theorem stage_runs {isLast : Bool}
    (h : plan.stage isLast borrow stage pool = .ok (code, scratch, next) later)
    (hready : plan.Ready pool.registers (stage :: stages)) (hborrow : pool.registers.Knows borrow) :
    ∃ d mid, plan.Differs stage pool d scratch mid ∧ mid.Extends later ∧
      later.registers.Knows next ∧ (plan.above ≠ [] → mid.registers.declares next = false) ∧
      ∀ {s : State}, later.registers <+: s.registers → s.Fits → code.Narrow s.registers →
        ∃ s₁, code.Does s (.skip 1) s₁ ∧
          s.Touches pool.registers (stage.low.toList ++ plan.stored isLast) s₁ ∧
          Balances (s.load stage.minuend.id) (stage.taken s.load + s.load borrow)
            stage.minuend.width (s₁.load d) (s₁.packed (plan.tail isLast next)) := by
  obtain ⟨d, mid, hd, hgrows, hnext, rfl, hbits, htail, hstorable, hfresh⟩ :=
    stage_ok h hready hborrow
  refine ⟨d, mid, hd, hgrows, hnext, hfresh, ?_⟩
  intro s hpre hs hnarrow
  have hmid := hgrows.registers.trans hpre
  have hpool := hd.grows.registers.trans hmid
  have hmem : stage ∈ stage :: stages := List.mem_cons_self
  have hwidth : s.registers.widthOf stage.minuend.id = stage.minuend.width := by
    rw [RegisterFile.widthOf_mono hpool (hready.minuend stage hmem), hready.width_eq stage hmem]
  -- the most that can be borrowed is the same in the registers of the state
  have hmost := Stage.borrowBits_mono hpool (hready.subtracted stage hmem) hborrow
  have hsame : stage.borrowBits s.registers borrow = bitLength (borrowsFor (stage.constant +
      ((stage.subtracted ++ borrow.listed).map s.registers.maxOf).sum)
        (s.registers.widthOf stage.minuend.id)) := by
    rw [Stage.borrowBits, hwidth]
  have hstore := hstorable (by rw [← hmost, hsame]; exact hnarrow)
  have hnot : d.isUsed = true → d ∉ plan.tail isLast next := fun hu hin =>
    hd.not_mem_stored hready (htail d hin (hd.known hu))
  have hdwidth : s.registers.widthOf d = s.registers.widthOf stage.minuend.id := by
    rw [hd.known.widthOf_eq hmid, hd.width_eq, hwidth]
  have hsub := (hstore.mono hpre).subtractable (d := d) (hd.known.mono hmid) hdwidth
    (by rw [hwidth]; exact hd.used_iff) (by rw [hwidth]; exact hready.size stage hmem) hnot
    (by rw [← hsame, hmost, hstore.widths_eq hpre]; exact hbits)
  obtain ⟨s₁, hdoes, htouch, hbal⟩ := Microcode.sub_runs hs hsub
  refine ⟨s₁, hdoes, (htouch pool.registers).narrow fun id hid hdecl => ?_, ?_⟩
  · rcases List.mem_append.1 hid with hid | hid
    · rw [(RegId.mem_listed.1 hid).1] at hdecl ⊢
      rw [hd.own hdecl]
      exact List.mem_append_left _ List.mem_cons_self
    · exact List.mem_append_right _
        (htail id hid (RegisterFile.declares_mono hd.grows.registers hdecl))
  · rw [List.take_left, List.drop_left, State.packed_listed, hwidth, List.map_append,
      List.sum_append, State.sum_map_listed, ← Nat.add_assoc] at hbal
    exact hbal

theorem mem_stored {isLast : Bool} {id : RegId} (h : id ∈ plan.stored isLast) :
    isLast = true ∧ id ∈ plan.stored true := by
  cases isLast with
  | true => exact ⟨rfl, h⟩
  | false => cases h

/-- Later stages still read the values from before the first one. -/
theorem Ready.joined_eq {s s₁ : State} (hready : plan.Ready pool.registers (stage :: stages))
    (htouch : s.Touches pool.registers (stage.low.toList ++ plan.stored stages.isEmpty) s₁) :
    Stage.joined (fun stage => s₁.load stage.minuend.id) stages =
        Stage.joined (fun stage => s.load stage.minuend.id) stages ∧
      Stage.joined (Stage.taken s₁.load) stages = Stage.joined (Stage.taken s.load) stages := by
  have hkept : ∀ stage' ∈ stages, ∀ id, pool.registers.declares id = true →
      id = stage'.minuend.id ∨ id ∈ stage'.subtracted → s₁.load id = s.load id := by
    intro stage' hmem id hdecl hread
    have hord := (List.pairwise_cons.1 hready.ordered).1 stage' hmem
    refine htouch.frame id hdecl fun hin => ?_
    rcases List.mem_append.1 hin with hin | hin
    · obtain ⟨hne, hnot⟩ := hord id (by simpa using hin)
      rcases hread with hread | hread
      · exact hne hread
      · exact hnot hread
    · -- a stage that others follow stores nothing beside its low target
      rw [List.isEmpty_iff.1 (mem_stored hin).1] at hmem
      cases hmem
  constructor
  · apply Stage.joined_congr
    intro stage' hmem
    exact hkept stage' hmem _ (hready.minuend stage' (List.mem_cons_of_mem _ hmem)) (.inl rfl)
  · apply Stage.joined_congr
    intro stage' hmem
    apply Stage.taken_congr
    intro id hid
    exact hkept stage' hmem id (hready.subtracted stage' (List.mem_cons_of_mem _ hmem) id hid)
      (.inr hid)

theorem stages_cons_ok
    (h : plan.stages borrow (stage :: stages) pool = .ok (codes, scratch, next) later) :
    ∃ code scratch₁ next₁ mid codes₂ scratch₂,
      plan.stage stages.isEmpty borrow stage pool = .ok (code, scratch₁, next₁) mid ∧
      plan.stages next₁ stages mid = .ok (codes₂, scratch₂, next) later ∧
      codes = code :: codes₂ ∧ scratch = scratch₁ ++ scratch₂ := by
  unfold Subtraction.stages at h
  obtain ⟨⟨code, scratch₁, next₁⟩, mid, hstage, h⟩ := estate_bind_ok.1 h
  obtain ⟨⟨codes₂, scratch₂, next₂⟩, later', hstages, h⟩ := estate_bind_ok.1 h
  obtain ⟨heq, rfl⟩ := estate_pure_ok.1 h
  cases heq
  exact ⟨code, scratch₁, next₁, mid, codes₂, scratch₂, hstage, hstages, rfl, rfl⟩

theorem filterMap_low_cons (stage : Stage) (stages : List Stage) :
    (stage :: stages).filterMap Stage.low = stage.low.toList ++ stages.filterMap Stage.low := by
  cases hlow : stage.low with
  | none => rw [List.filterMap_cons_none hlow, Option.toList_none, List.nil_append]
  | some id => rw [List.filterMap_cons_some hlow, Option.toList_some, List.singleton_append]

/-- A chain of stages balances the whole subtraction: `D` is the difference, left in the low targets
or in the scratch terms. -/
theorem stages_run (h : plan.stages borrow stages pool = .ok (codes, scratch, next) later)
    (hready : plan.Ready pool.registers stages) (hborrow : pool.registers.Knows borrow) :
    pool.Extends later ∧ later.registers.Knows next ∧
      (plan.above ≠ [] → stages ≠ [] → pool.registers.declares next = false) ∧
      (∀ term ∈ scratch, ∀ id ∈ term.monomial.vars, later.registers.Knows id) ∧
      ∀ {s : State}, later.registers <+: s.registers → s.Fits →
        (∀ code ∈ codes, code.Narrow s.registers) →
          ∃ s₁ D, Microcode.Runs codes s s₁ ∧ s.Touches pool.registers
            (stages.filterMap Stage.low ++ plan.stored (!stages.isEmpty)) s₁ ∧
          Balances (Stage.joined (fun stage => s.load stage.minuend.id) stages)
            (Stage.joined (Stage.taken s.load) stages + s.packed (plan.tail stages.isEmpty borrow))
            (stages.map fun stage => stage.minuend.width).sum D
              (s₁.packed (plan.tail true next)) ∧
          ((∀ stage ∈ stages, stage.low ≠ none) →
            s₁.packed (stages.filterMap Stage.low) = D) ∧
          ∀ rs offset, Limb.Contiguous rs offset (stages.map Stage.minuend) →
            (∀ stage ∈ stages, stage.low = none) →
            (scratch.map (Term.value s₁.load)).sum = 2 ^ offset * D := by
  induction stages generalizing borrow pool codes scratch with
  | nil =>
    obtain ⟨heq, rfl⟩ := estate_pure_ok.1 h
    cases heq
    refine ⟨.refl pool, hborrow, fun _ hne => absurd rfl hne, by simp, ?_⟩
    intro s hpre hs _
    refine ⟨s, 0, .nil s, .refl hs, ⟨by simp, ?_⟩, fun _ => rfl, by simp⟩
    simp [Stage.joined]
  | cons stage rest ih =>
    obtain ⟨code, scratch₁, next₁, later₁, codes₂, scratch₂, hstage, hstages,
        rfl, rfl⟩ :=
      stages_cons_ok h
    obtain ⟨d, mid, hd, hgrows₁, hnext₁, hfresh₁, hruns₁⟩ :=
      stage_runs hstage hready hborrow
    have hgrows := hd.grows.trans hgrows₁
    obtain ⟨hgrows₂, hnext₂, hfresh₂, hvars₂, hruns₂⟩ :=
      ih hstages (hready.tail.mono hgrows.registers) hnext₁
    refine ⟨hgrows.trans hgrows₂, hnext₂, ?_, ?_, ?_⟩
    · intro habove _
      cases rest with
      | nil =>
        obtain ⟨heq, rfl⟩ := estate_pure_ok.1 hstages
        cases heq
        exact RegisterFile.not_declares_mono hd.grows.registers (hfresh₁ habove)
      | cons stage' rest =>
        exact RegisterFile.not_declares_mono hgrows.registers
          (hfresh₂ habove (List.cons_ne_nil _ _))
    · intro term hterm id hid
      rcases List.mem_append.1 hterm with hterm | hterm
      · exact (hd.vars_scratch hterm id hid).mono (hgrows₁.trans hgrows₂).registers
      · exact hvars₂ term hterm id hid
    · intro s hpre hs hnarrow
      have hpre₁ := hgrows₂.registers.trans hpre
      obtain ⟨s₁, hdoes, htouch, hbal⟩ :=
        hruns₁ hpre₁ hs (hnarrow code List.mem_cons_self)
      obtain ⟨s₂, D, hrun, htouch₂, hbal₂, hlow₂, hscratch₂⟩ := hruns₂ (s := s₁)
        (by rw [htouch.registers_eq]; exact hpre) htouch.fits
        (by rw [htouch.registers_eq]; exact fun code hc => hnarrow code (List.mem_cons_of_mem _ hc))
      have hpre₂ : mid.registers <+: s₂.registers := by
        rw [htouch₂.registers_eq, htouch.registers_eq]
        exact hgrows₁.registers.trans hpre₁
      have hkept := hd.load_kept hready hgrows₁.registers htouch₂
      refine ⟨s₂, s₁.load d + 2 ^ stage.minuend.width * D, .cons hdoes hrun, ?_, ?_, ?_, ?_⟩
      · refine (htouch.trans htouch₂ hgrows.registers).narrow fun id hid _ => ?_
        rw [filterMap_low_cons]
        simp only [List.mem_append] at hid ⊢
        rcases hid with (hid | hid) | (hid | hid)
        · exact .inl (.inl hid)
        · exact .inr (mem_stored hid).2
        · exact .inl (.inr hid)
        · exact .inr (mem_stored hid).2
      · obtain ⟨hminuend, htaken⟩ := hready.joined_eq htouch
        rw [hminuend, htaken] at hbal₂
        have hchain := hbal.chain hbal₂
        rw [Stage.joined_cons, Stage.joined_cons, List.map_cons, List.sum_cons, List.isEmpty_cons,
          tail, Bool.false_and, if_neg Bool.false_ne_true, State.packed_listed, Nat.add_right_comm]
        exact hchain
      · intro hall
        obtain ⟨id, hlow⟩ := Option.ne_none_iff_exists'.1 (hall stage List.mem_cons_self)
        have hwidth : s₂.registers.widthOf id = stage.minuend.width := by
          obtain ⟨hdecl, hwidth⟩ := hready.low stage List.mem_cons_self id hlow
          rw [RegisterFile.widthOf_mono (hd.grows.registers.trans hpre₂) hdecl, hwidth]
        rw [List.filterMap_cons_some hlow, State.packed_cons, hwidth,
          hd.load_low hready htouch₂.fits hpre₂ hlow, hkept,
          hlow₂ fun stage' hmem => hall stage' (List.mem_cons_of_mem _ hmem)]
      · intro rs offset hcont hall
        obtain ⟨hoffset, -, hrest⟩ := hcont
        rw [List.map_append, List.sum_append,
          hd.sum_scratch (hall stage List.mem_cons_self) _ (State.load_unused _), hkept,
          hscratch₂ rs _ hrest fun stage' hmem => hall stage' (List.mem_cons_of_mem _ hmem),
          hoffset, Nat.pow_add, Nat.mul_add, Nat.mul_assoc]

end Subtraction

end LimbMachine
