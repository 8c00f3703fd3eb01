import LimbMachine.Proofs.Split.Routine

/-!
# How wide the registers of a split routine are

Limbs and scratch registers are no wider than the limb width. A carry or borrow register takes what
the other targets of its microcode leave of the result (`Microcode.overhang`), which may be more:
nothing compares it with the limb width. The registers of a split routine are therefore within the
limb width exactly when no overhang into an allocated register exceeds it (`Routine.split_widths`).
All that is certain is that they are within the bandwidth of the field.
-/

namespace LimbMachine

namespace Microcode

/-- The number of bits that the targets of a microcode have to take. -/
def resultWidth (rs : RegisterFile) : Microcode → Nat
  | sub _ (minuend :: subtrahends) constant => rs.widthOf minuend +
    bitLength (borrowsFor (constant + (subtrahends.map rs.maxOf).sum) (rs.widthOf minuend))
  | cast _ _ width => width
  | code => (code.polynomial?.map (Polynomial.width rs)).getD 0

/-- The number of bits that are left for the last target of a microcode. -/
def overhang (rs : RegisterFile) (code : Microcode) : Nat :=
  code.resultWidth rs - (rs.widths code.targets.dropLast).sum

end Microcode

/-! ## Accepted microcodes -/

theorem Word.sum_le (sizes : List Nat) : Word.sum sizes ≤ sizes.sum := Nat.mod_le _ _

theorem RegisterFile.totalWidth_le (rs : RegisterFile) (ids : List RegId) :
    rs.totalWidth ids ≤ (rs.widths ids).sum := Word.sum_le _

section Pivot

variable {rs : RegisterFile} {width sofar taken pivot : Nat} {targets : List RegId}

theorem pivotFrom_le (h : pivotFrom rs width sofar taken targets = some pivot) :
    taken ≤ pivot ∧ width ≤ sofar + (rs.widths (targets.take (pivot - taken))).sum := by
  induction targets generalizing sofar taken with
  | nil => cases h
  | cons target rest ih =>
    have hreached : Word.add sofar (rs.widthOf target) ≤ sofar + rs.widthOf target :=
      Nat.mod_le _ _
    unfold pivotFrom at h
    simp only at h
    split at h
    · rename_i heq
      cases h
      rw [Nat.add_sub_cancel_left, List.take_succ_cons, List.take_zero, RegisterFile.widths_cons,
        List.sum_cons]
      omega
    · split at h
      · cases h
      · obtain ⟨hle, hwidth⟩ := ih h
        obtain ⟨k, rfl⟩ := Nat.exists_eq_add_of_le hle
        have hk : taken + 1 + k - taken = k + 1 := by omega
        rw [Nat.add_sub_cancel_left] at hwidth
        rw [hk, List.take_succ_cons, RegisterFile.widths_cons, List.sum_cons]
        omega

/-- The low targets of a subtraction have room for the minuend. -/
theorem subPivot_le (h : subPivot targets rs width = some pivot) :
    width ≤ (rs.widths (targets.take pivot)).sum := by
  unfold subPivot at h
  split at h
  · omega
  · have hle := (pivotFrom_le h).2
    rwa [Nat.sub_zero, Nat.zero_add] at hle

end Pivot

namespace Microcode

variable {code : Microcode} {scope : Scope} {id : RegId}

/-- A minuend and what is borrowed for it stand side by side. -/
theorem bitLength_minuend_borrow (rs : RegisterFile) (minuend : RegId) (borrow : Nat) :
    rs.widthOf minuend + bitLength borrow ≤
      bitLength (rs.maxOf minuend + borrow <<< rs.widthOf minuend) := by
  rw [RegisterFile.maxOf_eq, Nat.shiftLeft_eq]
  generalize rs.widthOf minuend = width
  have hpos := Nat.two_pow_pos width
  by_contra hlt
  have hsmall := bitLength_le_iff.1 (Nat.le_sub_one_of_lt (Nat.not_le.1 hlt))
  cases hbits : bitLength borrow with
  | zero =>
    obtain rfl : borrow = 0 := by simpa [hbits] using bitLength_le_iff.1 (Nat.le_of_eq hbits)
    rw [hbits] at hlt hsmall
    cases width with
    | zero => omega
    | succ width =>
      have hpred : width + 1 + 0 - 1 = width := rfl
      rw [hpred] at hsmall
      omega
  | succ bits =>
    have hborrow : 2 ^ bits ≤ borrow := by
      by_contra hlt'
      have := bitLength_le_iff.2 (Nat.not_le.1 hlt')
      omega
    have hmul : 2 ^ bits * 2 ^ width ≤ borrow * 2 ^ width := Nat.mul_le_mul_right _ hborrow
    have hpred : width + bitLength borrow - 1 = bits + width := by omega
    rw [hpred, Nat.pow_add] at hsmall
    omega

/-- The result of an accepted microcode fits its targets and one field element. -/
theorem resultWidth_le (h : code.validate scope = .ok ()) :
    code.resultWidth scope.registers ≤ (scope.registers.widths code.targets).sum ∧
      code.resultWidth scope.registers ≤ scope.field.bandwidth := by
  have hrule := (validate_ok_iff.1 h).2
  have htotal := RegisterFile.totalWidth_le scope.registers code.targets
  cases code with
  | assign targets rhs => exact ⟨hrule.2.1.trans htotal, hrule.2.2⟩
  | add targets sources constant => exact ⟨hrule.2.1.trans htotal, hrule.2.2⟩
  | mul targets sources constant => exact ⟨hrule.2.1.trans htotal, hrule.2.2⟩
  | sub targets sources constant =>
    obtain ⟨-, minuend, subtrahends, pivot, rfl, hsub⟩ := hrule
    constructor
    · have hlow := subPivot_le hsub.pivot_eq
      have hhigh := hsub.borrow_le.trans (RegisterFile.totalWidth_le _ _)
      have hsum : (scope.registers.widths (targets.take pivot)).sum +
          (scope.registers.widths (targets.drop pivot)).sum =
          (scope.registers.widths targets).sum := by
        rw [← List.sum_append, ← RegisterFile.widths_append, List.take_append_drop]
      exact (Nat.add_le_add hlow hhigh).trans (Nat.le_of_eq hsum)
    · exact (bitLength_minuend_borrow _ _ _).trans hsub.field_le
  | cast targets source width => exact ⟨hrule.2.2.1.trans htotal, hrule.2.2.2⟩
  | _ => exact ⟨Nat.zero_le _, Nat.zero_le _⟩

/-- The last target of an accepted microcode has room for what is left for it. -/
theorem overhang_le (h : code.validate scope = .ok ()) (hlast : code.targets.getLast? = some id) :
    code.overhang scope.registers ≤ scope.registers.widthOf id := by
  have hroom := (resultWidth_le h).1
  have htargets := List.dropLast_append_getLast? id hlast
  rw [← htargets, RegisterFile.widths_append, List.sum_append, RegisterFile.widths_cons,
    List.sum_cons, RegisterFile.widths_nil, List.sum_nil] at hroom
  unfold overhang
  omega

end Microcode

/-! ## Allocated registers -/

/-- A register is the last target of the microcode and no wider than what is left for it. -/
def Microcode.Fills (code : Microcode) (rs : RegisterFile) (id : RegId) : Prop :=
  code.targets.getLast? = some id ∧ rs.widthOf id ≤ code.overhang rs

/-- Every register allocated between the pools is within the limb width or filled by one of the
microcodes, whatever is allocated later. -/
structure Pool.Covers (pool later : Pool) (codes : List Microcode) : Prop where
  grows : pool.Extends later
  covered : ∀ {rs : RegisterFile} {i : Nat}, later.registers <+: rs →
    pool.registers.length ≤ i → i < later.registers.length →
    rs.widthOf (.reg i) ≤ pool.width ∨ ∃ code ∈ codes, code.Fills rs (.reg i)

namespace Pool

variable {pool mid later : Pool} {codes codes' : List Microcode} {label : String} {width : Nat}
  {id : RegId} {limb : Limb}

theorem IsLimb.mono (h : pool.IsLimb limb) (hext : pool.Extends later) : later.IsLimb limb where
  declared := RegisterFile.declares_mono hext.registers h.declared
  width_eq := by rw [h.width_eq, RegisterFile.widthOf_mono hext.registers h.declared]
  narrow := by
    rw [hext.width_eq]
    exact h.narrow

theorem Covers.refl (pool : Pool) (codes : List Microcode) : pool.Covers pool codes :=
  ⟨.refl pool, fun _ hle hlt => absurd hlt (Nat.not_lt.2 hle)⟩

theorem Covers.trans (h : pool.Covers mid codes) (h' : mid.Covers later codes') :
    pool.Covers later (codes ++ codes') := by
  refine ⟨h.grows.trans h'.grows, fun {rs i} hpre hle hlt => ?_⟩
  by_cases hmid : i < mid.registers.length
  · rcases h.covered (h'.grows.registers.trans hpre) hle hmid with hnarrow |
      ⟨code, hcode, hfills⟩
    · exact .inl hnarrow
    · exact .inr ⟨code, List.mem_append_left _ hcode, hfills⟩
  · rcases h'.covered hpre (Nat.not_lt.1 hmid) hlt with hnarrow | ⟨code, hcode, hfills⟩
    · exact .inl (h.grows.width_eq ▸ hnarrow)
    · exact .inr ⟨code, List.mem_append_right _ hcode, hfills⟩

theorem Covers.mono (h : pool.Covers later codes) (hsub : codes ⊆ codes') :
    pool.Covers later codes' := by
  refine ⟨h.grows, fun {rs i} hpre hle hlt => (h.covered hpre hle hlt).imp_right ?_⟩
  rintro ⟨code, hcode, hfills⟩
  exact ⟨code, hsub hcode, hfills⟩

/-- A register within the limb width needs no microcode. -/
theorem covers_of_narrow (h : allocate label width pool = .ok id later)
    (hwidth : width ≤ pool.width) : pool.Covers later [] := by
  have halloc := allocate_ok h
  refine ⟨halloc.grows, fun {rs i} hpre hle hlt => .inl ?_⟩
  rw [← allocate_new h hle hlt, halloc.known.widthOf_eq hpre, halloc.widthOf_eq]
  exact hwidth

theorem covers_of_fills (h : allocate label width pool = .ok id later) {code : Microcode}
    (hfills : ∀ {rs : RegisterFile}, later.registers <+: rs → id.isUsed = true →
      code.Fills rs id) :
    pool.Covers later [code] := by
  refine ⟨(allocate_ok h).grows,
    fun {rs i} hpre hle hlt => .inr ⟨code, List.mem_singleton_self _, ?_⟩⟩
  obtain rfl := allocate_new h hle hlt
  exact hfills hpre rfl

end Pool

/-! ## Chains of equations -/

namespace LimbEquation

variable {pool later : Pool} {codes : List Microcode} {eqs : List LimbEquation} {carry : RegId}
  {site : Site} {ids : List RegId} {copies : List (RegId × RegId)}

theorem copy_covers (h : copy ids pool = .ok copies later)
    (hids : ∀ id ∈ ids, pool.registers.declares id = true ∧
      pool.registers.widthOf id ≤ pool.width) :
    pool.Covers later [] ∧ ∀ pair ∈ copies, later.registers.Knows pair.2 := by
  induction ids generalizing pool copies with
  | nil =>
    obtain ⟨rfl, rfl⟩ := estate_pure_ok.1 h
    exact ⟨.refl pool [], by simp⟩
  | cons id ids ih =>
    unfold copy at h
    rw [estate_get_bind] at h
    obtain ⟨saved, mid, halloc, h⟩ := estate_bind_ok.1 h
    obtain ⟨rest, later', hcopy, h⟩ := estate_bind_ok.1 h
    obtain ⟨rfl, rfl⟩ := estate_pure_ok.1 h
    have hgrows := (Pool.allocate_ok halloc).grows
    have hrest : ∀ id ∈ ids, mid.registers.declares id = true ∧
        mid.registers.widthOf id ≤ mid.width := by
      intro id hid
      obtain ⟨hdecl, hwidth⟩ := hids id (List.mem_cons_of_mem _ hid)
      rw [RegisterFile.widthOf_mono hgrows.registers hdecl, hgrows.width_eq]
      exact ⟨RegisterFile.declares_mono hgrows.registers hdecl, hwidth⟩
    obtain ⟨hcovers, hknown⟩ := ih hcopy hrest
    refine ⟨(Pool.covers_of_narrow halloc (hids id List.mem_cons_self).2).trans hcovers, ?_⟩
    intro pair hpair
    rcases List.mem_cons.1 hpair with rfl | hpair
    · exact (Pool.allocate_ok halloc).known.mono hcovers.grows.registers
    · exact hknown pair hpair

/-- A carry takes exactly what the limb of its equation leaves. -/
theorem chain_covers (h : chain site carry eqs pool = .ok codes later)
    (hlimbs : ∀ eq ∈ eqs, pool.IsLimb eq.limb)
    (hknown : ∀ eq ∈ eqs, ∀ m ∈ eq.terms, ∀ id ∈ m.vars, pool.registers.Knows id)
    (hcarry : pool.registers.Knows carry) : pool.Covers later codes := by
  induction eqs generalizing carry pool codes with
  | nil =>
    obtain ⟨rfl, rfl⟩ := estate_pure_ok.1 h
    exact .refl pool []
  | cons eq rest ih =>
    rcases chain_cons_ok h with ⟨-, -, rfl, rfl⟩ |
      ⟨-, next, mid, codes', halloc, hchain, rfl⟩
    · exact .refl later _
    · have hmem : eq ∈ eq :: rest := List.mem_cons_self
      have halloc' := Pool.allocate_ok halloc
      have hgrows := halloc'.grows
      have hrest := ih hchain
        (fun eq' heq' => (hlimbs eq' (List.mem_cons_of_mem _ heq')).mono hgrows)
        (fun eq' heq' m hm id hid =>
          (hknown eq' (List.mem_cons_of_mem _ heq') m hm id hid).mono hgrows.registers)
        halloc'.known
      have hfirst : pool.Covers mid [.assign (eq.limb.id :: next.listed) (eq.rhs carry)] := by
        apply Pool.covers_of_fills halloc
        intro rs hpre hused
        have hpre' := hgrows.registers.trans hpre
        have hlimb : rs.widthOf eq.limb.id = eq.limb.width := by
          rw [(hlimbs eq hmem).width_eq, RegisterFile.widthOf_mono hpre' (hlimbs eq hmem).declared]
        refine ⟨by simp [Microcode.targets, RegId.listed, hused], ?_⟩
        rw [halloc'.known.widthOf_eq hpre, halloc'.widthOf_eq, Microcode.overhang]
        simp [Microcode.targets, RegId.listed, hused, hlimb, Microcode.resultWidth,
          Microcode.polynomial?, width_rhs hpre' (hknown eq hmem) hcarry]
      exact hfirst.trans hrest

end LimbEquation

theorem distribute_covers {site : Site} {terms : List Term} {layout : List Limb} {pool later : Pool}
    {codes : List Microcode} (h : distribute site terms layout pool = .ok codes later)
    (hlimbs : ∀ limb ∈ layout, pool.IsLimb limb)
    (hknown : ∀ term ∈ terms, ∀ id ∈ term.monomial.vars, pool.registers.Knows id) :
    pool.Covers later codes := by
  obtain ⟨copies, mid, chained, hcopy, hchain, rfl⟩ := distribute_ok h
  have hmap := LimbEquation.map_limb_ofTerms layout terms
  have hlimb : ∀ eq ∈ LimbEquation.ofTerms layout terms, pool.IsLimb eq.limb := fun eq heq =>
    hlimbs _ (hmap ▸ List.mem_map_of_mem heq)
  have hhazards :
      ∀ id ∈ (LimbEquation.hazards [] (LimbEquation.ofTerms layout terms)).eraseDups,
        pool.registers.declares id = true ∧ pool.registers.widthOf id ≤ pool.width := by
    intro id hid
    rcases LimbEquation.hazards_subset (List.mem_eraseDups.1 hid) with hnil | hmem
    · cases hnil
    · obtain ⟨eq, heq, rfl⟩ := List.mem_map.1 hmem
      have heq' := hlimb eq heq
      exact ⟨heq'.declared, heq'.width_eq ▸ heq'.narrow⟩
  obtain ⟨hcopies, hcopied⟩ := LimbEquation.copy_covers hcopy hhazards
  have hchained := LimbEquation.chain_covers hchain (fun eq heq => ?_) (fun eq heq => ?_)
    (fun hu => (nomatch hu))
  · exact (hcopies.trans hchained).mono (by simp)
  · obtain ⟨eq', heq', rfl⟩ := List.mem_map.1 heq
    exact (hlimb eq' heq').mono hcopies.grows
  · obtain ⟨eq', heq', rfl⟩ := List.mem_map.1 heq
    intro m hm id hid
    obtain ⟨m', hm', rfl⟩ := List.mem_map.1 hm
    obtain ⟨id', hid', rfl⟩ := List.mem_map.1 hid
    obtain ⟨term, hterm, hvars⟩ := LimbEquation.vars_ofTerms heq' hm'
    exact LimbEquation.knows_reading hcopied
      ((hknown term hterm id' (hvars ▸ hid')).mono hcopies.grows.registers)

theorem splitPolynomial_covers {site : Site} {targets : List RegId} {rhs : Polynomial}
    {early later : Pool} {codes : List Microcode} {rs : RegisterFile}
    (h : splitPolynomial site targets rhs early = .ok codes later) (hs : early.Splits rs) :
    early.Covers later codes := by
  obtain ⟨layout, terms, hlayout, hterms, h⟩ := splitPolynomial_ok h
  exact distribute_covers h (hs.isLimb hlayout) fun term hterm id hid =>
    .of_declares (Pool.terms_declared hs hterms term hterm id hid)

/-! ## Chains of stages -/

/-- The registers of a stage are known, and its low target has no more bits than its limb. -/
structure Stage.Known (pool : Pool) (stage : Stage) : Prop where
  minuend : pool.IsLimb stage.minuend
  low : ∀ id, stage.low = some id →
    pool.registers.declares id = true ∧ pool.registers.widthOf id ≤ stage.minuend.width
  subtracted : ∀ id ∈ stage.subtracted, pool.registers.declares id = true

theorem Stage.Known.mono {pool later : Pool} {stage : Stage} (h : stage.Known pool)
    (hext : pool.Extends later) : stage.Known later where
  minuend := h.minuend.mono hext
  low id hid := by
    obtain ⟨hdecl, hwidth⟩ := h.low id hid
    rw [RegisterFile.widthOf_mono hext.registers hdecl]
    exact ⟨RegisterFile.declares_mono hext.registers hdecl, hwidth⟩
  subtracted id hid := RegisterFile.declares_mono hext.registers (h.subtracted id hid)

namespace Subtraction

variable {plan : Subtraction} {stage : Stage} {stages : List Stage} {pool later : Pool}
  {targets : List RegId} {scratch : List Term} {borrow next : RegId} {code : Microcode}
  {codes : List Microcode} {aligned : Bool}

theorem difference_covers (h : plan.difference stage pool = .ok (targets, scratch) later)
    (hstage : stage.Known pool) : pool.Covers later [] ∧
      (∀ id ∈ targets, later.registers.declares id = true) ∧
      (later.registers.widths targets).sum ≤ stage.minuend.width ∧
      ∀ term ∈ scratch, ∀ id ∈ term.monomial.vars, later.registers.Knows id := by
  unfold difference at h
  by_cases hzero : plan.width = 0
  · simp only [hzero, if_true] at h
    obtain ⟨heq, rfl⟩ := estate_pure_ok.1 h
    cases heq
    exact ⟨.refl pool [], by simp, by simp, by simp⟩
  · simp only [hzero, if_false] at h
    cases hlow : stage.low with
    | some id =>
      simp only [hlow] at h
      obtain ⟨heq, rfl⟩ := estate_pure_ok.1 h
      cases heq
      obtain ⟨hdecl, hwidth⟩ := hstage.low id hlow
      exact ⟨.refl pool [], by simpa using hdecl, by simpa using hwidth, by simp⟩
    | none =>
      simp only [hlow] at h
      obtain ⟨saved, mid, halloc, h⟩ := estate_bind_ok.1 h
      obtain ⟨heq, rfl⟩ := estate_pure_ok.1 h
      have halloc' := Pool.allocate_ok halloc
      have hcovers := Pool.covers_of_narrow halloc hstage.minuend.narrow
      cases hused : saved.isUsed with
      | true =>
        rw [hused, if_pos rfl] at heq
        cases heq
        refine ⟨hcovers, by simpa using halloc'.known hused, ?_, ?_⟩
        · simp [halloc'.widthOf_eq]
        · intro term hterm id hid
          rw [List.mem_singleton.1 hterm] at hid
          rw [List.mem_singleton.1 hid]
          exact halloc'.known
      | false =>
        rw [hused, if_neg Bool.false_ne_true] at heq
        cases heq
        exact ⟨hcovers, by simp, by simp, by simp⟩

/-- A borrow register takes exactly the most that its stage can borrow. -/
theorem stage_covers {isLast : Bool}
    (h : plan.stage isLast borrow stage pool = .ok (code, scratch, next) later)
    (hstage : stage.Known pool) (hborrow : pool.registers.Knows borrow) :
    pool.Covers later [code] ∧ later.registers.Knows next ∧
      ∀ term ∈ scratch, ∀ id ∈ term.monomial.vars, later.registers.Knows id := by
  unfold Subtraction.stage at h
  rw [estate_get_bind] at h
  obtain ⟨⟨targets, scratch'⟩, mid, hdiff, h⟩ := estate_bind_ok.1 h
  obtain ⟨hcovers, hdecl, hwidths, hscratch⟩ := difference_covers hdiff hstage
  have hnew : (stage.subtracted ++ if borrow.isUsed then [borrow] else []) =
      stage.subtracted ++ borrow.listed := rfl
  simp only [hnew] at h
  split at h
  · split at h
    · cases h
    · obtain ⟨heq, rfl⟩ := estate_pure_ok.1 h
      cases heq
      exact ⟨hcovers.mono (by simp), hborrow.mono hcovers.grows.registers, hscratch⟩
  · obtain ⟨saved, later', halloc, h⟩ := estate_bind_ok.1 h
    obtain ⟨heq, rfl⟩ := estate_pure_ok.1 h
    cases heq
    have halloc' := Pool.allocate_ok halloc
    refine ⟨?_, halloc'.known, fun term hterm id hid =>
      (hscratch term hterm id hid).mono halloc'.grows.registers⟩
    apply hcovers.trans
    apply Pool.covers_of_fills halloc
    intro rs hpre hused
    have hmid := halloc'.grows.registers.trans hpre
    have hpool := hcovers.grows.registers.trans hmid
    have hminuend : rs.widthOf stage.minuend.id = stage.minuend.width := by
      rw [hstage.minuend.width_eq, RegisterFile.widthOf_mono hpool hstage.minuend.declared]
    have hmax : (stage.subtracted ++ borrow.listed).map rs.maxOf =
        (stage.subtracted ++ borrow.listed).map pool.registers.maxOf := by
      refine List.map_congr_left fun id hid => ?_
      rcases List.mem_append.1 hid with hid | hid
      · exact (RegisterFile.Knows.of_declares (hstage.subtracted id hid)).maxOf_eq hpool
      · rw [(RegId.mem_listed.1 hid).1]
        exact hborrow.maxOf_eq hpool
    have htargets : (rs.widths targets).sum ≤ stage.minuend.width := by
      rw [RegisterFile.widths_mono hmid hdecl]
      exact hwidths
    refine ⟨by simp [Microcode.targets, hused], ?_⟩
    rw [halloc'.known.widthOf_eq hpre, halloc'.widthOf_eq, Microcode.overhang]
    simp only [Microcode.targets, hused, if_true, List.dropLast_concat, Microcode.resultWidth,
      hminuend, hmax]
    omega

theorem stages_cover (h : plan.stages borrow stages pool = .ok (codes, scratch, next) later)
    (hstages : ∀ stage ∈ stages, stage.Known pool) (hborrow : pool.registers.Knows borrow) :
    pool.Covers later codes ∧ later.registers.Knows next ∧
      ∀ term ∈ scratch, ∀ id ∈ term.monomial.vars, later.registers.Knows id := by
  induction stages generalizing borrow pool codes scratch with
  | nil =>
    obtain ⟨heq, rfl⟩ := estate_pure_ok.1 h
    cases heq
    exact ⟨.refl pool [], hborrow, by simp⟩
  | cons stage stages ih =>
    unfold Subtraction.stages at h
    obtain ⟨⟨code, scratch₁, next₁⟩, mid, hstage, h⟩ := estate_bind_ok.1 h
    obtain ⟨⟨codes₁, more, final⟩, later', hrest, h⟩ := estate_bind_ok.1 h
    obtain ⟨heq, rfl⟩ := estate_pure_ok.1 h
    cases heq
    obtain ⟨hcovers, hnext, hscratch⟩ :=
      stage_covers hstage (hstages stage List.mem_cons_self) hborrow
    obtain ⟨hcovers', hfinal, hmore⟩ := ih hrest
      (fun stage' hstage' =>
        (hstages stage' (List.mem_cons_of_mem _ hstage')).mono hcovers.grows) hnext
    refine ⟨hcovers.trans hcovers', hfinal, fun term hterm id hid => ?_⟩
    rcases List.mem_append.1 hterm with hterm | hterm
    · exact (hscratch term hterm id hid).mono hcovers'.grows.registers
    · exact hmore term hterm id hid

theorem codes_cover (h : plan.codes aligned stages pool = .ok codes later)
    (hstages : ∀ stage ∈ stages, stage.Known pool)
    (hlow : ∀ limb ∈ plan.low, pool.IsLimb limb)
    (hhigh : ∀ limb ∈ plan.high, pool.IsLimb limb)
    (habove : ∀ term ∈ plan.above, ∀ id ∈ term.monomial.vars, pool.registers.Knows id) :
    pool.Covers later codes := by
  obtain ⟨chain, scratch, next, mid, moved, later₁, hchain, hmoved, hnone, hsome⟩ :=
    codes_ok h
  obtain ⟨hcovers, hnext, hscratch⟩ := stages_cover hchain hstages fun hu => (nomatch hu)
  have hmoved : mid.Covers later₁ moved := by
    cases aligned with
    | true =>
      obtain ⟨rfl, rfl⟩ := estate_pure_ok.1 hmoved
      exact .refl mid []
    | false =>
      exact distribute_covers hmoved (fun limb hlimb =>
        (hlow limb hlimb).mono hcovers.grows) hscratch
  by_cases hempty : plan.above = []
  · obtain ⟨rfl, rfl⟩ := hnone hempty
    exact hcovers.trans hmoved
  · obtain ⟨-, raised, rfl, hraised⟩ := hsome hempty
    have hgrows := hcovers.grows.trans hmoved.grows
    have hraised := distribute_covers hraised (fun limb hlimb => (hhigh limb hlimb).mono hgrows)
      fun term hterm id hid => ?_
    · exact (hcovers.trans hmoved).trans hraised
    · rcases List.mem_append.1 hterm with hterm | hterm
      · exact (habove term hterm id hid).mono hgrows.registers
      · obtain ⟨id', hid', rfl⟩ := List.mem_map.1 hterm
        rw [List.mem_singleton.1 hid, (RegId.mem_listed.1 hid').1]
        exact hnext.mono hmoved.grows.registers

end Subtraction

theorem splitSubtraction_covers {site : Site} {targets sources : List RegId} {constant : Nat}
    {early later : Pool} {codes : List Microcode}
    (h : splitSubtraction site targets sources constant early = .ok codes later)
    (hs : early.Splits site.registers) : early.Covers later codes := by
  unfold splitSubtraction at h
  obtain ⟨⟨plan, aligned, stages⟩, mid, hask, hcodes⟩ := estate_bind_ok.1 h
  obtain ⟨hplan, rfl⟩ := Pool.asking_ok.1 hask
  obtain ⟨minuend, subtrahends, pivot, rfl, hpivot⟩ := Pool.planSubtraction_pivot hplan
  obtain ⟨-, limbs, others, hparts⟩ := Pool.planSubtraction_parts hs hpivot hplan
  have hothers : ∀ limb ∈ others, early.registers.declares limb.id = true := by
    intro limb hlimb
    obtain ⟨-, id, own, hown, hmem⟩ := Pool.mem_limbsOfEach hparts.others_eq limb hlimb
    exact (hs.isLimb hown limb hmem).declared
  refine Subtraction.codes_cover hcodes (fun stage hstage => ?_) (hs.isLimb hparts.low_eq)
    (hs.isLimb hparts.high_eq) fun term hterm id hid => ?_
  · refine ⟨hs.isLimb hparts.limbs_eq _ (hparts.minuend_mem hstage), fun id hlow => ?_,
      fun id hid => ?_⟩
    · obtain ⟨-, i, limb, -, hlimb, rfl, hwidth⟩ := hparts.low_getElem? hstage hlow
      have hlimb := hs.isLimb hparts.low_eq limb (List.mem_of_getElem? hlimb)
      exact ⟨hlimb.declared, Nat.le_of_eq (hlimb.width_eq.symm.trans hwidth)⟩
    · rw [hparts.subtracted_eq hstage] at hid
      obtain ⟨limb, hlimb, rfl⟩ := List.mem_map.1 hid
      exact hothers limb (List.mem_filter.1 (List.mem_filter.1 hlimb).1).1
  · rw [hparts.above_eq] at hterm
    obtain ⟨limb, hlimb, rfl⟩ := List.mem_map.1 hterm
    rw [List.mem_singleton.1 hid]
    exact .of_declares (hothers limb (List.mem_filter.1 hlimb).1)

/-! ## Casts -/

namespace Piece

variable {pool later : Pool} {pieces : List Piece} {casts codes : List Microcode}
    {terms : List Term}

theorem gather_covers (h : gather pieces pool = .ok (casts, terms) later)
    (hpieces : ∀ piece ∈ pieces, pool.IsLimb piece.limb) : pool.Covers later [] ∧
      ∀ term ∈ terms, ∀ id ∈ term.monomial.vars, later.registers.Knows id := by
  induction pieces generalizing pool casts terms with
  | nil =>
    obtain ⟨heq, rfl⟩ := estate_pure_ok.1 h
    cases heq
    exact ⟨.refl pool [], by simp⟩
  | cons piece pieces ih =>
    have hfirst := hpieces piece List.mem_cons_self
    rcases gather_cons_ok h with ⟨hcut, whole, mid, casts', terms', halloc, hgather, rfl, rfl⟩ |
      ⟨-, terms', hgather, rfl⟩
    · have halloc' := Pool.allocate_ok halloc
      obtain ⟨hcovers, hknown⟩ := ih hgather fun piece' hpiece' =>
        (hpieces piece' (List.mem_cons_of_mem _ hpiece')).mono halloc'.grows
      refine ⟨(Pool.covers_of_narrow halloc ((Nat.le_of_lt hcut).trans hfirst.narrow)).trans
        hcovers, ?_⟩
      refine List.forall_mem_cons.2 ⟨fun id hid => ?_, hknown⟩
      rw [List.mem_singleton.1 hid]
      exact halloc'.known.mono hcovers.grows.registers
    · obtain ⟨hcovers, hknown⟩ := ih hgather fun piece' hpiece' =>
        hpieces piece' (List.mem_cons_of_mem _ hpiece')
      refine ⟨hcovers, List.forall_mem_cons.2 ⟨fun id hid => ?_, hknown⟩⟩
      rw [List.mem_singleton.1 hid]
      exact .of_declares (RegisterFile.declares_mono hcovers.grows.registers hfirst.declared)

theorem move_covers {site : Site} {targets : List Limb}
    (h : move site pieces targets pool = .ok codes later)
    (hpieces : ∀ piece ∈ pieces, pool.IsLimb piece.limb)
    (htargets : ∀ limb ∈ targets, pool.IsLimb limb) : pool.Covers later codes := by
  rcases move_ok h with ⟨slots, -, rfl, rfl⟩ | ⟨casts, terms, mid, moved, hgather,
    hmoved, rfl⟩
  · exact .refl pool _
  · obtain ⟨hcovers, hknown⟩ := gather_covers hgather hpieces
    have hmoved := distribute_covers hmoved
      (fun limb hlimb => (htargets limb hlimb).mono hcovers.grows) hknown
    exact (hcovers.trans hmoved).mono (by simp)

end Piece

theorem splitCast_covers {site : Site} {targets : List RegId} {source : RegId} {width : Nat}
    {early later : Pool} {fragments : List Fragment} {rs : RegisterFile}
    (h : splitCast site targets source width early = .ok fragments later) (hs : early.Splits rs) :
    early.Covers later (fragments.map Fragment.code) := by
  obtain ⟨sourceLimbs, targetLimbs, codes, hsource, htarget, hmove, rfl⟩ := splitCast_ok h
  have hcovers := Piece.move_covers hmove (fun piece hpiece => ?_) (hs.isLimb htarget)
  · refine hcovers.mono fun code hcode => ?_
    rw [List.map_append, List.map_map]
    exact List.mem_append_right _ (by simpa [Fragment.plain] using hcode)
  · obtain ⟨limb, hlimb, rfl⟩ := List.mem_map.1 (List.mem_filter.1 hpiece).1
    exact hs.isLimb hsource limb (List.mem_filter.1 hlimb).1

/-! ## Instructions -/

namespace Microcode

variable {early later : Pool} {offset : Nat} {code : Microcode} {fragments : List Fragment}
  {rs : RegisterFile}

/-- Only sums, subtractions and casts allocate. -/
theorem lower_covers (h : lower ⟨code, rs⟩ offset early = .ok fragments later)
    (hs : early.Splits rs) : early.Covers later (fragments.map Fragment.code) := by
  cases lower_ok h with
  | sum hp h =>
    rw [Fragment.map_code_plain]
    exact splitPolynomial_covers h hs
  | difference h =>
    rw [Fragment.map_code_plain]
    exact splitSubtraction_covers h hs
  | copy h => exact splitCast_covers h hs
  | comparison hcompares h =>
    obtain ⟨rfl, -⟩ := splitComparison_ok h
    exact .refl early _
  | renamed => exact .refl early _
  | lines => exact .refl early _

theorem expand_covers (h : code.expand rs offset early = .ok fragments later)
    (hs : early.Splits rs) : early.Covers later (fragments.map Fragment.code) := by
  obtain ⟨-, ⟨rfl, -, rfl⟩ | ⟨-, hlower⟩⟩ := expand_ok h
  · exact .refl early _
  · exact lower_covers hlower hs

theorem withSkip_of_targets (h : code.targets ≠ []) (distance : Nat) :
    code.withSkip distance = code := by
  cases code with
  | skip left right constant d => exact absurd rfl h
  | skipIf left right constant d => exact absurd rfl h
  | _ => rfl

end Microcode

/-- A fragment that stores goes into the split instruction as it is. -/
theorem Fragment.mem_link {expansions : List (List Fragment)} {fragment : Fragment}
    (hmem : fragment ∈ expansions.flatten) (htargets : fragment.code.targets ≠ []) :
    fragment.code ∈ link expansions := by
  obtain ⟨before, rest, hflat⟩ := List.append_of_mem hmem
  have hget := List.mem_of_getElem? (link_getElem? hflat)
  unfold settle at hget
  cases hbranch : fragment.branch with
  | none => rwa [hbranch] at hget
  | some b =>
    rw [hbranch] at hget
    simp only [Microcode.withSkip_of_targets htargets] at hget
    exact hget

theorem Pool.Covers.link {early later : Pool} {expansions : List (List Fragment)}
    (h : early.Covers later (expansions.flatten.map Fragment.code)) :
    early.Covers later (Fragment.link expansions) := by
  refine ⟨h.grows, fun {rs i} hpre hle hlt => (h.covered hpre hle hlt).imp_right ?_⟩
  rintro ⟨code, hcode, hfills⟩
  obtain ⟨fragment, hfragment, rfl⟩ := List.mem_map.1 hcode
  refine ⟨fragment.code, Fragment.mem_link hfragment fun hnil => ?_, hfills⟩
  rw [Microcode.Fills, hnil] at hfills
  cases hfills.1

namespace Instruction

variable {rs : RegisterFile} {early later : Pool}

theorem expandFrom_covers {codes : List Microcode} {offset : Nat}
    {expansions : List (List Fragment)}
    (h : expandFrom rs offset codes early = .ok expansions later) (hs : early.Splits rs) :
    early.Covers later (expansions.flatten.map Fragment.code) := by
  induction codes generalizing offset early expansions with
  | nil =>
    obtain ⟨rfl, rfl⟩ := estate_pure_ok.1 h
    exact .refl early _
  | cons code codes ih =>
    obtain ⟨fragments, mid, hfirst, h⟩ := estate_bind_ok.1 h
    obtain ⟨others, last, hrest, h⟩ := estate_bind_ok.1 h
    obtain ⟨rfl, rfl⟩ := estate_pure_ok.1 h
    have hfirst := Microcode.expand_covers hfirst hs
    rw [List.flatten_cons, List.map_append]
    exact hfirst.trans (ih hrest (hs.mono hfirst.grows))

theorem splitAll_covers {instructions code : List Instruction}
    (h : splitAll rs instructions early = .ok code later) (hs : early.Splits rs) :
    early.Covers later code.flatten := by
  induction instructions generalizing early code with
  | nil =>
    obtain ⟨rfl, rfl⟩ := estate_pure_ok.1 h
    exact .refl early _
  | cons instruction instructions ih =>
    obtain ⟨first, mid, hfirst, h⟩ := estate_bind_ok.1 h
    obtain ⟨others, last, hrest, h⟩ := estate_bind_ok.1 h
    obtain ⟨rfl, rfl⟩ := estate_pure_ok.1 h
    obtain ⟨expansions, mid', hexpand, hlink⟩ := estate_bind_ok.1 hfirst
    obtain ⟨rfl, rfl⟩ := estate_pure_ok.1 hlink
    have hfirst := (expandFrom_covers hexpand hs).link
    exact hfirst.trans (ih hrest (hs.mono hfirst.grows))

end Instruction

/-! ## Routines -/

theorem Pool.widthOf_ofRegisters_le {rs : RegisterFile} {width i : Nat}
    (hi : i < (ofRegisters rs width).registers.length) :
    (ofRegisters rs width).registers.widthOf (.reg i) ≤ (ofRegisters rs width).width := by
  rw [RegisterFile.widthOf_reg (List.getElem?_eq_getElem hi)]
  obtain ⟨group, hgroup, hmem⟩ := List.mem_flatten.1 (List.getElem_mem hi)
  obtain ⟨r, -, rfl⟩ := List.mem_map.1 hgroup
  have hlimb := List.mem_map_of_mem (f := Register.width) hmem
  rw [Register.map_width_limbs] at hlimb
  exact limbWidths_le _ hlimb

namespace Routine

variable {f : Routine} {field : FieldParams} {split : SplitRoutine}

/-- What a split routine says about the pool it was made with. -/
theorem splitWithLimbs_covers (h : f.splitWithLimbs field = .ok split) :
    (Pool.ofRegisters f.registers field.registerWidth).Covers split.pool
      split.routine.code.flatten ∧ split.routine.registers = split.pool.registers ∧
        split.pool.width = field.registerWidth := by
  obtain ⟨code, buses, hcode, -, hroutine, hvalid⟩ := splitWithLimbs_ok h
  have hcovers := Instruction.splitAll_covers hcode (Pool.splits_ofRegisters _ _)
  have hfield := (FieldParams.validate_ok_iff field).1 (validate_ok_iff.1 hvalid).1
  refine ⟨by rw [hroutine]; exact hcovers, by rw [hroutine], ?_⟩
  rw [hcovers.grows.width_eq]
  exact Nat.max_eq_left hfield.1

/-- Every microcode of a split routine was accepted for the field. -/
theorem validate_of_split (h : f.splitWithLimbs field = .ok split) {code : Microcode}
    (hcode : code ∈ split.routine.code.flatten) :
    code.validate (split.routine.scope field) = .ok () := by
  obtain ⟨-, -, -, -, -, hvalid⟩ := splitWithLimbs_ok h
  obtain ⟨instruction, hi, hc⟩ := List.mem_flatten.1 hcode
  exact (Instruction.validate_ok_iff.1 ((validate_ok_iff.1 hvalid).2.2 instruction hi)).2.1 code hc

/-- Limbs come first and are within the limb width. -/
theorem widthOf_limb_le (h : f.splitWithLimbs field = .ok split) {i : Nat}
    (hi : i < split.pool.base) :
    split.routine.registers.widthOf (.reg i) ≤ field.registerWidth := by
  obtain ⟨hcovers, hregs, hwidth⟩ := splitWithLimbs_covers h
  have hbase : split.pool.base =
      (Pool.ofRegisters f.registers field.registerWidth).registers.length := hcovers.grows.base_eq
  rw [hbase] at hi
  have hdecl := RegisterFile.declares_reg.2 hi
  calc split.routine.registers.widthOf (.reg i)
      = (Pool.ofRegisters f.registers field.registerWidth).registers.widthOf (.reg i) := by
        rw [hregs, RegisterFile.widthOf_mono hcovers.grows.registers hdecl]
    _ ≤ (Pool.ofRegisters f.registers field.registerWidth).width := Pool.widthOf_ofRegisters_le hi
    _ = field.registerWidth := by rw [← hcovers.grows.width_eq, hwidth]

/-- An allocated register is within the limb width or takes what one microcode leaves for it. -/
theorem widthOf_allocated (h : f.splitWithLimbs field = .ok split) {i : Nat}
    (hi : split.pool.base ≤ i) (hlt : i < split.routine.registers.length) :
    split.routine.registers.widthOf (.reg i) ≤ field.registerWidth ∨
      ∃ code ∈ split.routine.code.flatten, code.Fills split.routine.registers (.reg i) := by
  obtain ⟨hcovers, hregs, hwidth⟩ := splitWithLimbs_covers h
  have hbase : split.pool.base =
      (Pool.ofRegisters f.registers field.registerWidth).registers.length := hcovers.grows.base_eq
  rw [hregs] at hlt ⊢
  rw [← hwidth, hcovers.grows.width_eq]
  exact hcovers.covered (List.prefix_refl _) (hbase ▸ hi) hlt

/-- **The registers of a split routine.** Limbs are within the register width of the field, and
every register is within its bandwidth. All registers are within the register width exactly when no
microcode leaves more than that for a last target that was allocated. -/
theorem split_widths (h : f.splitWithLimbs field = .ok split) :
    (∀ i < split.pool.base, split.routine.registers.widthOf (.reg i) ≤ field.registerWidth) ∧
    (∀ r ∈ split.routine.registers, r.width ≤ field.bandwidth) ∧
    ((∀ r ∈ split.routine.registers, r.width ≤ field.registerWidth) ↔
      ∀ instruction ∈ split.routine.code, ∀ code ∈ instruction, ∀ i,
        split.pool.base ≤ i → code.targets.getLast? = some (.reg i) →
          code.overhang split.routine.registers ≤ field.registerWidth) := by
  have hfield : field.registerWidth ≤ field.bandwidth := by
    obtain ⟨-, -, -, -, -, hvalid⟩ := splitWithLimbs_ok h
    exact ((FieldParams.validate_ok_iff field).1 (validate_ok_iff.1 hvalid).1).2
  refine ⟨fun i hi => widthOf_limb_le h hi, fun r hr => ?_, fun hall => ?_, fun hall r hr => ?_⟩
  · obtain ⟨i, hi, rfl⟩ := List.getElem_of_mem hr
    rw [← RegisterFile.widthOf_reg (List.getElem?_eq_getElem hi)]
    by_cases hbase : i < split.pool.base
    · exact (widthOf_limb_le h hbase).trans hfield
    · rcases widthOf_allocated h (Nat.not_lt.1 hbase) hi with hnarrow |
        ⟨code, hcode, -, hfills⟩
      · exact hnarrow.trans hfield
      · have hresult := (Microcode.resultWidth_le (validate_of_split h hcode)).2
        exact hfills.trans ((Nat.sub_le _ _).trans hresult)
  · intro instruction hi code hc i _ hlast
    have hcode : code ∈ split.routine.code.flatten := List.mem_flatten.2 ⟨instruction, hi, hc⟩
    have hroom := Microcode.overhang_le (validate_of_split h hcode) hlast
    cases hdecl : split.routine.registers.declares (.reg i) with
    | false =>
      have hzero : (split.routine.scope field).registers.widthOf (.reg i) = 0 :=
        RegisterFile.widthOf_of_not_declares hdecl
      rw [hzero] at hroom
      exact hroom.trans (Nat.zero_le _)
    | true =>
      have hi' := RegisterFile.declares_reg.1 hdecl
      have hwidth : (split.routine.scope field).registers.widthOf (.reg i) =
          split.routine.registers[i].width :=
            RegisterFile.widthOf_reg (List.getElem?_eq_getElem hi')
      rw [hwidth] at hroom
      exact hroom.trans (hall _ (List.getElem_mem hi'))
  · obtain ⟨i, hi, rfl⟩ := List.getElem_of_mem hr
    rw [← RegisterFile.widthOf_reg (List.getElem?_eq_getElem hi)]
    by_cases hbase : i < split.pool.base
    · exact widthOf_limb_le h hbase
    · rcases widthOf_allocated h (Nat.not_lt.1 hbase) hi with hnarrow |
        ⟨code, hcode, hlast, hfills⟩
      · exact hnarrow
      · obtain ⟨instruction, hinstruction, hc⟩ := List.mem_flatten.1 hcode
        exact hfills.trans (hall instruction hinstruction code hc i (Nat.not_lt.1 hbase) hlast)

/-- Multiplies two numbers of twelve bits. -/
def product : Routine where
  name := "mul"
  registers := [⟨.input, "a", 12, 0⟩, ⟨.input, "b", 12, 0⟩, ⟨.output, "p", 30, 0⟩]
  buses := []
  code := [[.mul [.reg 2] [.reg 0, .reg 1] 1, .ret]]

/-- The second limb of a product takes two products of limbs and a carry, and leaves one bit too
many. -/
theorem product_carry_too_wide : ∃ split, product.splitWithLimbs .gf8209 = .ok split ∧
    ∃ r ∈ split.routine.registers, FieldParams.gf8209.registerWidth < r.width := by
  have hcheck : (match product.splitWithLimbs .gf8209 with
      | .ok split => split.routine.registers.any fun r => FieldParams.gf8209.registerWidth < r.width
      | .error _ => false) = true := by decide +kernel
  cases hsplit : product.splitWithLimbs .gf8209 with
  | error e =>
    rw [hsplit] at hcheck
    cases hcheck
  | ok split =>
    rw [hsplit] at hcheck
    obtain ⟨r, hr, hwide⟩ := List.any_eq_true.1 hcheck
    exact ⟨split, rfl, r, hr, of_decide_eq_true hwide⟩

theorem split_widths_product : ∃ split, product.splitWithLimbs .gf8209 = .ok split ∧
    (∀ i < split.pool.base, split.routine.registers.widthOf (.reg i) ≤ 6) ∧
    (∀ r ∈ split.routine.registers, r.width ≤ 13) ∧
    ((∀ r ∈ split.routine.registers, r.width ≤ 6) ↔
      ∀ instruction ∈ split.routine.code, ∀ code ∈ instruction, ∀ i,
        split.pool.base ≤ i → code.targets.getLast? = some (.reg i) →
          code.overhang split.routine.registers ≤ 6) := by
  have hcheck : (product.splitWithLimbs .gf8209).isOk = true := by decide +kernel
  cases hsplit : product.splitWithLimbs .gf8209 with
  | error e =>
    rw [hsplit] at hcheck
    cases hcheck
  | ok split => exact ⟨split, rfl, split_widths hsplit⟩

end Routine

end LimbMachine
