import LimbMachine.Proofs.Failure
import LimbMachine.Proofs.Split.Lowered

/-!
# Sums of registers side by side

The carry of a limb equation is a whole register, so the most it can hold may exceed what is
carried, and a chain of equations may overflow though the sum would fit. Not so where the terms are
registers side by side (`Term.Tiled`): then the largest value of every right-hand side, carry
included, is one below a power of two (`LimbEquation.Full`), the carry holds exactly what is
carried, and the chain succeeds if the registers end no later than the limbs (`distribute_tiled`).
The pieces of a cast are side by side, so a cast never overflows (`Piece.move_succeeds`).
-/

namespace LimbMachine

theorem Pool.allocate_succeeds (label : String) (width : Nat) (pool : Pool) :
    ∃ id later, allocate label width pool = .ok id later := by
  unfold allocate
  split
  · exact ⟨_, _, rfl⟩
  · exact ⟨_, _, rfl⟩

/-! ## Terms side by side -/

namespace Term

variable {rs : RegisterFile} {a b : Nat} {terms : List Term}

/-- The terms are registers side by side, from bit `a` to bit `b`. -/
def Tiled (rs : RegisterFile) : Nat → Nat → List Term → Prop
  | a, b, [] => a = b
  | a, b, term :: rest =>
    ∃ id, term = ofLimb id a ∧ 0 < rs.widthOf id ∧ Tiled rs (a + rs.widthOf id) b rest

theorem Tiled.le (h : Tiled rs a b terms) : a ≤ b := by
  induction terms generalizing a with
  | nil => exact Nat.le_of_eq h
  | cons term rest ih =>
    obtain ⟨id, rfl, hpos, hrest⟩ := h
    have := ih hrest
    omega

/-- The terms that start before bit `bound` come first. -/
theorem Tiled.split (h : Tiled rs a b terms) (bound : Nat) :
    ∃ lower upper middle, terms = lower ++ upper ∧ Tiled rs a middle lower ∧
      Tiled rs middle b upper ∧ (∀ term ∈ lower, term.shift < bound) ∧
      (upper = [] ∨ bound ≤ middle) := by
  induction terms generalizing a with
  | nil => exact ⟨[], [], a, rfl, rfl, h, by simp, .inl rfl⟩
  | cons term rest ih =>
    rcases Nat.lt_or_ge a bound with hlt | hge
    · obtain ⟨id, rfl, hpos, hrest⟩ := h
      obtain ⟨lower, upper, middle, rfl, hlower, hupper, hbefore, hcase⟩ := ih hrest
      refine ⟨ofLimb id a :: lower, upper, middle, rfl, ⟨id, rfl, hpos, hlower⟩, hupper,
        ?_, hcase⟩
      exact List.forall_mem_cons.2 ⟨hlt, hbefore⟩
    · exact ⟨[], term :: rest, a, rfl, rfl, h, by simp, .inr hge⟩

theorem Tiled.shift_ge (h : Tiled rs a b terms) : ∀ term ∈ terms, a ≤ term.shift := by
  induction terms generalizing a with
  | nil => simp
  | cons term rest ih =>
    obtain ⟨id, rfl, hpos, hrest⟩ := h
    refine List.forall_mem_cons.2 ⟨Nat.le_refl a, fun term' hterm' => ?_⟩
    have := ih hrest term' hterm'
    omega

theorem Tiled.coefficient_eq (h : Tiled rs a b terms) :
    ∀ term ∈ terms, term.monomial.coefficient = 1 := by
  induction terms generalizing a with
  | nil => simp
  | cons term rest ih =>
    obtain ⟨id, rfl, hpos, hrest⟩ := h
    exact List.forall_mem_cons.2 ⟨rfl, ih hrest⟩

/-- The monomial of a term in the equation of the limb at bit `offset`. -/
def scaled (offset : Nat) (term : Term) : Monomial :=
  ⟨2 ^ (term.shift - offset), term.monomial.vars⟩

/-- Registers side by side are full together: their largest values add up to one below a power of
two, less what lies below them. -/
theorem Tiled.sideValue_scaled {offset : Nat} (h : Tiled rs a b terms) (hle : offset ≤ a) :
    sideValue rs.maxOf (terms.map (scaled offset)) + 2 ^ (a - offset) = 2 ^ (b - offset) := by
  induction terms generalizing a with
  | nil =>
    obtain rfl : a = b := h
    simp [sideValue, Polynomial.eval]
  | cons term rest ih =>
    obtain ⟨id, rfl, hpos, hrest⟩ := h
    have hsum := ih hrest (by omega)
    have hmax : (scaled offset (ofLimb id a)).eval rs.maxOf =
        2 ^ (a - offset) * (2 ^ rs.widthOf id - 1) := by
      simp [scaled, ofLimb, Monomial.eval_eq, RegisterFile.maxOf_eq]
    have hpow : 2 ^ (a + rs.widthOf id - offset) = 2 ^ (a - offset) * 2 ^ rs.widthOf id := by
      rw [← Nat.pow_add]
      congr 1
      omega
    have hle : 2 ^ (a - offset) ≤ 2 ^ (a - offset) * 2 ^ rs.widthOf id :=
      Nat.le_mul_of_pos_right _ (Nat.two_pow_pos _)
    rw [List.map_cons, sideValue_cons, hmax, Nat.mul_sub, Nat.mul_one]
    omega

/-! ## Parts -/

variable {limb : Limb} {rest : List Limb} {shift offset : Nat}

theorem carryUp_zero (limbs : List Limb) : carryUp limbs 0 = limbs.map fun _ => 0 := by
  induction limbs with
  | nil => rfl
  | cons limb rest ih =>
    cases rest with
    | nil => rfl
    | cons next rest =>
      rw [carryUp, Nat.zero_shiftRight, ih]
      · simp
      · simp

/-- A power of two within a limb goes to that limb. -/
theorem parts_within (hcont : Limb.Contiguous rs offset (limb :: rest)) (hle : offset ≤ shift)
    (hlt : shift < offset + limb.width) :
    parts 1 shift (limb :: rest) = 2 ^ (shift - offset) :: rest.map fun _ => 0 := by
  obtain ⟨hoffset, hwidth, hrest⟩ := hcont
  have hany : (rest.any fun next => next.offset ≤ shift) = false := by
    rw [List.any_eq_false]
    intro next hnext
    have hge := (hrest.bounds hnext).1
    simp only [decide_eq_true_eq]
    omega
  rw [parts, hany, if_neg (by simp), Nat.one_shiftLeft, hoffset]
  cases rest with
  | nil => rfl
  | cons next rest =>
    have hmod : 2 ^ (shift - offset) % 2 ^ limb.width = 2 ^ (shift - offset) :=
      Nat.mod_eq_of_lt (Nat.pow_lt_pow_right (by decide) (by omega))
    have hshift : 2 ^ (shift - offset) >>> limb.width = 0 := by
      rw [Nat.shiftRight_eq_div_pow]
      exact Nat.div_eq_of_lt (Nat.pow_lt_pow_right (by decide) (by omega))
    rw [carryUp, hmod, hshift, carryUp_zero]
    simp

/-- Nothing goes to a limb that the next one starts at or before the weight. -/
theorem parts_above (hcont : Limb.Contiguous rs offset (limb :: rest)) (hne : rest ≠ [])
    (hle : offset + limb.width ≤ shift) (coefficient : Nat) :
    parts coefficient shift (limb :: rest) = 0 :: parts coefficient shift rest := by
  obtain ⟨hoffset, hwidth, hrest⟩ := hcont
  have hany : (rest.any fun next => next.offset ≤ shift) = true := by
    cases rest with
    | nil => exact absurd rfl hne
    | cons next rest =>
      obtain ⟨hnext, -⟩ := hrest
      simp [hnext, hle]
  rw [parts, if_pos hany]

end Term

/-! ## Equations of terms side by side -/

namespace LimbEquation

variable {rs : RegisterFile} {limb : Limb} {rest : List Limb} {offset a b : Nat}
  {lower upper terms : List Term}

/-- What each limb receives of some terms. -/
def sides (layout : List Limb) (terms : List Term) : List (List Monomial) :=
  terms.foldr (Term.addTo layout) (layout.map fun _ => [])

theorem sides_step (layout : List Limb) (term : Term) (terms : List Term) :
    sides layout (term :: terms) = term.addTo layout (sides layout terms) := rfl

theorem sides_above (hcont : Limb.Contiguous rs offset (limb :: rest))
    (hne : upper ≠ [] → rest ≠ [])
    (hupper : ∀ term ∈ upper, offset + limb.width ≤ term.shift) :
    sides (limb :: rest) upper = [] :: sides rest upper := by
  induction upper with
  | nil => rfl
  | cons term upper ih =>
    rw [List.forall_mem_cons] at hupper
    have hrest : rest ≠ [] := hne (List.cons_ne_nil _ _)
    rw [sides_step, ih (fun _ => hrest) hupper.2, Term.addTo,
      Term.parts_above hcont hrest hupper.1, List.zipWith_cons_cons, if_pos rfl]
    rfl

theorem zipWith_zero {α : Type} (limbs : List Limb) (sides : List α) (f : Nat → α → α)
    (hlength : sides.length = limbs.length) (hzero : ∀ side, f 0 side = side) :
    List.zipWith f (limbs.map fun _ => 0) sides = sides := by
  induction limbs generalizing sides with
  | nil =>
    rw [List.length_nil, List.length_eq_zero_iff] at hlength
    rw [hlength]
    rfl
  | cons limb rest ih =>
    cases sides with
    | nil => cases hlength
    | cons side sides =>
      rw [List.map_cons, List.zipWith_cons_cons, hzero, ih sides (by simpa using hlength)]

/-- The first limb receives the terms that start within it, the others receive the rest. -/
theorem sides_cons (hcont : Limb.Contiguous rs offset (limb :: rest))
    (hne : upper ≠ [] → rest ≠ [])
    (hlower : ∀ term ∈ lower, offset ≤ term.shift ∧ term.shift < offset + limb.width)
    (hone : ∀ term ∈ lower, term.monomial.coefficient = 1)
    (hupper : ∀ term ∈ upper, offset + limb.width ≤ term.shift) :
    sides (limb :: rest) (lower ++ upper) =
      lower.map (Term.scaled offset) :: sides rest upper := by
  induction lower with
  | nil => exact sides_above hcont hne hupper
  | cons term lower ih =>
    rw [List.forall_mem_cons] at hlower hone
    have hpos : 2 ^ (term.shift - offset) ≠ 0 := Nat.ne_of_gt (Nat.two_pow_pos _)
    have hothers := zipWith_zero rest (sides rest upper)
      (fun part side => if part = 0 then side else ⟨part, term.monomial.vars⟩ :: side)
      (length_sides upper) fun side => if_pos rfl
    rw [List.cons_append, sides_step, ih hlower.2 hone.2, Term.addTo, hone.1,
      Term.parts_within hcont hlower.1.1 hlower.1.2, List.zipWith_cons_cons, if_neg hpos, hothers]
    rfl

theorem ofTerms_cons (hcont : Limb.Contiguous rs offset (limb :: rest))
    (hne : upper ≠ [] → rest ≠ [])
    (hlower : ∀ term ∈ lower, offset ≤ term.shift ∧ term.shift < offset + limb.width)
    (hone : ∀ term ∈ lower, term.monomial.coefficient = 1)
    (hupper : ∀ term ∈ upper, offset + limb.width ≤ term.shift) :
    ofTerms (limb :: rest) (lower ++ upper) =
      ⟨limb, lower.map (Term.scaled offset)⟩ :: ofTerms rest upper := by
  show List.zipWith mk (limb :: rest) (sides (limb :: rest) (lower ++ upper)) = _
  rw [sides_cons hcont hne hlower hone hupper, List.zipWith_cons_cons]
  rfl

theorem terms_ofTerms_nil (layout : List Limb) : ∀ eq ∈ ofTerms layout [], eq.terms = [] := by
  induction layout with
  | nil => simp [ofTerms]
  | cons limb rest ih => exact List.forall_mem_cons.2 ⟨rfl, ih⟩

/-- The largest value of every right-hand side, together with a carry of `carried` bits, is one
below a power of two, and at the last equation it fits the limbs that are left. -/
def Full (rs : RegisterFile) : Nat → List LimbEquation → Prop
  | _, [] => True
  | carried, eq :: rest => ∃ bits, sideValue rs.maxOf eq.terms + 2 ^ carried = 2 ^ bits ∧
    if rest.all fun later => later.terms.isEmpty then
      bits ≤ eq.limb.width + (rest.map fun later => later.limb.width).sum
    else Full rs (bits - eq.limb.width) rest

/-- The equations of registers side by side are full. -/
theorem full_ofTerms {known : RegisterFile} {layout : List Limb}
    (hcont : Limb.Contiguous known offset layout) (htiled : Term.Tiled rs a b terms)
    (hle : offset ≤ a) (hfit : b ≤ offset + (layout.map Limb.width).sum) :
    Full rs (a - offset) (ofTerms layout terms) := by
  induction layout generalizing offset a terms with
  | nil => exact trivial
  | cons limb rest ih =>
    obtain ⟨lower, upper, middle, rfl, hlower, hupper, hbefore, hcase⟩ :=
      htiled.split (offset + limb.width)
    rw [List.map_cons, List.sum_cons] at hfit
    have hmiddle := hlower.le
    have hend := hupper.le
    -- terms above the first limb leave room for other limbs
    have hne : upper ≠ [] → rest ≠ [] := by
      rintro hupper' rfl
      have hge := hcase.resolve_left hupper'
      cases upper with
      | nil => exact hupper' rfl
      | cons term upper =>
        obtain ⟨id, -, hpos, hrest⟩ := hupper
        have := hrest.le
        rw [List.map_nil, List.sum_nil] at hfit
        omega
    have hequations := ofTerms_cons hcont hne
      (fun term hterm => ⟨Nat.le_trans hle (hlower.shift_ge term hterm), hbefore term hterm⟩)
      hlower.coefficient_eq fun term hterm => by
        have hge := hcase.resolve_left (List.ne_nil_of_mem hterm)
        exact Nat.le_trans hge (hupper.shift_ge term hterm)
    rw [hequations]
    refine ⟨middle - offset, hlower.sideValue_scaled hle, ?_⟩
    split
    · have hwidths : (ofTerms rest upper).map (fun later => later.limb.width) =
          rest.map Limb.width := by
        conv_rhs => rw [← map_limb_ofTerms rest upper]
        rw [List.map_map]
        rfl
      rw [hwidths]
      show middle - offset ≤ limb.width + _
      omega
    · rename_i hsome
      have hge : offset + limb.width ≤ middle := by
        apply hcase.resolve_left
        rintro rfl
        apply hsome
        rw [List.all_eq_true]
        intro eq heq
        rw [terms_ofTerms_nil rest eq heq]
        rfl
      have hfull := ih hcont.2.2 hupper hge (by omega)
      rwa [Nat.sub_add_eq] at hfull

/-! ## Chains that succeed -/

variable {rs' : RegisterFile} {eqs eqs' : List LimbEquation} {carried : Nat}

/-- Equations that look the same from the outside. -/
def Alike (rs rs' : RegisterFile) (eq eq' : LimbEquation) : Prop :=
  eq'.limb.width = eq.limb.width ∧ eq'.terms.isEmpty = eq.terms.isEmpty ∧
    sideValue rs'.maxOf eq'.terms = sideValue rs.maxOf eq.terms

theorem Full.congr (h : Full rs carried eqs) (halike : List.Forall₂ (Alike rs rs') eqs eqs') :
    Full rs' carried eqs' := by
  induction halike generalizing carried with
  | nil => trivial
  | @cons eq eq' rest rest' hfirst hrest ih =>
    obtain ⟨hwidth, hempty, hvalue⟩ := hfirst
    obtain ⟨bits, hbits, hcase⟩ := h
    have hall : (rest'.all fun later => later.terms.isEmpty) =
        rest.all fun later => later.terms.isEmpty := by
      clear ih hcase
      induction hrest with
      | nil => rfl
      | cons hfirst _ ih => rw [List.all_cons, List.all_cons, ih, hfirst.2.1]
    have hwidths : (rest'.map fun later => later.limb.width) =
        rest.map fun later => later.limb.width := by
      clear ih hcase hall
      induction hrest with
      | nil => rfl
      | cons hfirst _ ih => rw [List.map_cons, List.map_cons, ih, hfirst.1]
    refine ⟨bits, by rw [hvalue]; exact hbits, ?_⟩
    rw [hall, hwidth, hwidths]
    split
    · rename_i hdone
      rwa [if_pos hdone] at hcase
    · rename_i hmore
      rw [if_neg hmore] at hcase
      exact ih hcase

theorem Full.mono (h : Full rs carried eqs) (hpre : rs <+: rs')
    (hknown : ∀ eq ∈ eqs, ∀ m ∈ eq.terms, ∀ id ∈ m.vars, rs.Knows id) :
    Full rs' carried eqs := by
  apply h.congr
  rw [List.forall₂_same]
  intro eq heq
  exact ⟨rfl, rfl, sideValue_congr fun m hm id hid => (hknown eq heq m hm id hid).maxOf_eq hpre⟩

theorem maxValue_rhs (rs : RegisterFile) (eq : LimbEquation) (carry : RegId) :
    (eq.rhs carry).maxValue rs = sideValue rs.maxOf eq.terms + rs.maxOf carry := by
  cases carry with
  | unused => simp [rhs, Polynomial.maxValue, RegId.isUsed, RegisterFile.maxOf, RegisterFile.find?]
  | reg i => simp [rhs, Polynomial.maxValue, Polynomial.eval, RegId.isUsed, Monomial.eval]

theorem width_rhs_of_full {eq : LimbEquation} {carry : RegId} {bits : Nat}
    (h : sideValue rs.maxOf eq.terms + 2 ^ rs.widthOf carry = 2 ^ bits) :
    (eq.rhs carry).width rs = bits := by
  have hpos := Nat.two_pow_pos (rs.widthOf carry)
  have hmax : (eq.rhs carry).maxValue rs = 2 ^ bits - 1 := by
    rw [maxValue_rhs, RegisterFile.maxOf_eq]
    omega
  rw [Polynomial.width, hmax, bitLength_two_pow_sub_one]

/-- A chain of full equations succeeds. -/
theorem chain_succeeds {site : Site} {pool : Pool} {carry : RegId}
    (hfull : Full pool.registers (pool.registers.widthOf carry) eqs)
    (hsize : (eqs.map fun eq => eq.limb.width).sum < Word.modulus)
    (hknown : ∀ eq ∈ eqs, ∀ m ∈ eq.terms, ∀ id ∈ m.vars, pool.registers.Knows id) :
    ∃ codes later, chain site carry eqs pool = .ok codes later := by
  induction eqs generalizing pool carry with
  | nil => exact ⟨[], pool, rfl⟩
  | cons eq rest ih =>
    obtain ⟨bits, hbits, hcase⟩ := hfull
    have hwidth := width_rhs_of_full hbits
    rw [List.map_cons, List.sum_cons] at hsize
    rw [List.forall_mem_cons] at hknown
    unfold chain
    rw [estate_get_bind]
    by_cases hdone : (rest.all fun later => later.terms.isEmpty) = true
    · rw [if_pos hdone] at hcase
      have htotal : Limb.total (eq.limb :: rest.map LimbEquation.limb) =
          eq.limb.width + (rest.map fun later => later.limb.width).sum := by
        rw [Limb.total, Word.sum_eq]
        · simp [Function.comp_def]
        · simpa [Function.comp_def] using hsize
      have hfits : ¬ Limb.total (eq.limb :: rest.map LimbEquation.limb) <
          (eq.rhs carry).width pool.registers := by
        rw [htotal, hwidth]
        omega
      simp only [hdone, if_true, hfits, if_false]
      exact ⟨_, _, rfl⟩
    · rw [if_neg hdone] at hcase
      simp only [hdone, Bool.false_eq_true, if_false]
      obtain ⟨next, mid, hnext⟩ := Pool.allocate_succeeds "carry"
        ((eq.rhs carry).width pool.registers - eq.limb.width) pool
      have halloc := Pool.allocate_ok hnext
      have hpre := halloc.grows.registers
      have hfull' : Full mid.registers (mid.registers.widthOf next) rest := by
        rw [halloc.widthOf_eq, hwidth]
        exact hcase.mono hpre hknown.2
      obtain ⟨codes, later, hchain⟩ := ih hfull' (by omega) fun eq' heq' m hm id hid =>
        (hknown.2 eq' heq' m hm id hid).mono hpre
      rw [estate_bind_of_ok hnext, estate_bind_of_ok hchain]
      exact ⟨_, _, rfl⟩

/-- Copies are taken without failing, as wide as what is copied. -/
theorem copy_succeeds {ids : List RegId} {pool : Pool}
    (hids : ∀ id ∈ ids, pool.registers.Knows id) :
    ∃ copies later, copy ids pool = .ok copies later ∧ pool.Extends later ∧
      ∀ pair ∈ copies, pair.1 ∈ ids ∧ later.registers.Knows pair.2 ∧
        later.registers.widthOf pair.2 = pool.registers.widthOf pair.1 := by
  induction ids generalizing pool with
  | nil => exact ⟨[], pool, rfl, .refl pool, by simp⟩
  | cons id ids ih =>
    rw [List.forall_mem_cons] at hids
    obtain ⟨saved, mid, hsaved⟩ := Pool.allocate_succeeds "tmp" (pool.registers.widthOf id) pool
    have halloc := Pool.allocate_ok hsaved
    have hpre := halloc.grows.registers
    obtain ⟨copies, later, hcopy, hgrows, hcopies⟩ := ih fun id hid => (hids.2 id hid).mono hpre
    refine ⟨(id, saved) :: copies, later, ?_, halloc.grows.trans hgrows, ?_⟩
    · unfold copy
      rw [estate_get_bind, estate_bind_of_ok hsaved, estate_bind_of_ok hcopy]
      rfl
    · refine List.forall_mem_cons.2 ⟨⟨List.mem_cons_self,
        halloc.known.mono hgrows.registers, ?_⟩, fun pair hpair => ?_⟩
      · rw [halloc.known.widthOf_eq hgrows.registers]
        exact halloc.widthOf_eq
      · obtain ⟨hmem, hknown, hwidth⟩ := hcopies pair hpair
        refine ⟨List.mem_cons_of_mem _ hmem, hknown, hwidth.trans ?_⟩
        exact (hids.2 _ hmem).widthOf_eq hpre

/-- Equations that read copies instead are alike. -/
theorem alike_moved {later : RegisterFile} {copies : List (RegId × RegId)} {eq : LimbEquation}
    (hpre : rs <+: later) (hknown : ∀ m ∈ eq.terms, ∀ id ∈ m.vars, rs.Knows id)
    (hcopies : ∀ pair ∈ copies, later.widthOf pair.2 = rs.widthOf pair.1) :
    Alike rs later eq { eq with terms := eq.terms.map (Monomial.mapVars (reading copies)) } := by
  refine ⟨rfl, List.isEmpty_map, ?_⟩
  show (Polynomial.mapVars (reading copies) ⟨eq.terms⟩).eval later.maxOf = _
  apply Polynomial.eval_mapVars
  intro id hid
  obtain ⟨m, hm, hvar⟩ := Polynomial.mem_registers.1 hid
  rcases reading_cases copies id with hsame | hcopied
  · rw [hsame]
    exact (hknown m hm id hvar).maxOf_eq hpre
  · rw [RegisterFile.maxOf_eq, RegisterFile.maxOf_eq, hcopies _ hcopied]

end LimbEquation

theorem Term.Tiled.reads_pos {rs : RegisterFile} {a b : Nat} {terms : List Term}
    (h : Term.Tiled rs a b terms) : ∀ id ∈ Term.reads terms, 0 < rs.widthOf id := by
  induction terms generalizing a with
  | nil => simp
  | cons term rest ih =>
    obtain ⟨id, rfl, hpos, hrest⟩ := h
    intro id' hid'
    rw [Term.reads, List.flatMap_cons, List.mem_append] at hid'
    rcases hid' with hid' | hid'
    · rw [List.mem_singleton.1 hid']
      exact hpos
    · exact ih hrest id' hid'

/-- Registers side by side that end no later than the limbs are distributed over them. -/
theorem distribute_tiled {site : Site} {known : RegisterFile} {terms : List Term}
    {layout : List Limb} {pool : Pool} {b : Nat} (hcont : Limb.Contiguous known 0 layout)
    (hsize : (layout.map Limb.width).sum < Word.modulus)
    (htiled : Term.Tiled pool.registers 0 b terms) (hfit : b ≤ (layout.map Limb.width).sum) :
    ∃ codes later, distribute site terms layout pool = .ok codes later := by
  have hvars : ∀ id ∈ LimbEquation.vars (LimbEquation.ofTerms layout terms),
      pool.registers.Knows id := fun id hid =>
    .of_declares (RegisterFile.declares_of_widthOf_pos
      (htiled.reads_pos id (LimbEquation.vars_ofTerms_subset layout terms hid)))
  have hknown : ∀ eq ∈ LimbEquation.ofTerms layout terms, ∀ m ∈ eq.terms, ∀ id ∈ m.vars,
      pool.registers.Knows id := fun eq heq m hm id hid =>
    hvars id (List.mem_flatMap.2 ⟨eq, heq, List.mem_flatMap.2 ⟨m, hm, hid⟩⟩)
  have hfull := LimbEquation.full_ofTerms hcont htiled (Nat.le_refl 0) (by rwa [Nat.zero_add])
  have hhazards :
      ∀ id ∈ (LimbEquation.hazards [] (LimbEquation.ofTerms layout terms)).eraseDups,
        pool.registers.Knows id := fun id hid =>
    hvars id (LimbEquation.hazards_vars (List.mem_eraseDups.1 hid))
  obtain ⟨copies, mid, hcopy, hgrows, hcopies⟩ := LimbEquation.copy_succeeds hhazards
  have hpre := hgrows.registers
  obtain ⟨codes, later, hchain⟩ : ∃ codes later, LimbEquation.chain site .unused
      ((LimbEquation.ofTerms layout terms).map fun eq =>
        { eq with terms := eq.terms.map (Monomial.mapVars (LimbEquation.reading copies)) }) mid =
      .ok codes later := by
    apply LimbEquation.chain_succeeds
    · apply hfull.congr
      rw [List.forall₂_map_right_iff, List.forall₂_same]
      exact fun eq heq => LimbEquation.alike_moved hpre (hknown eq heq) fun pair hpair =>
        (hcopies pair hpair).2.2
    · rw [List.map_map]
      conv at hsize => rw [← LimbEquation.map_limb_ofTerms layout terms, List.map_map]
      exact hsize
    · intro eq' heq' m' hm' id' hid'
      obtain ⟨eq, heq, rfl⟩ := List.mem_map.1 heq'
      obtain ⟨m, hm, rfl⟩ := List.mem_map.1 hm'
      obtain ⟨id, hid, rfl⟩ := List.mem_map.1 hid'
      apply LimbEquation.knows_reading (fun pair hpair => (hcopies pair hpair).2.1)
      exact (hknown eq heq m hm id hid).mono hpre
  refine ⟨copies.map LimbEquation.save ++ codes, later, ?_⟩
  unfold distribute
  rw [estate_bind_of_ok hcopy, estate_bind_of_ok hchain]
  rfl

/-! ## Pieces side by side -/

namespace Piece

variable {a b : Nat} {pieces : List Piece} {limbs targets : List Limb} {pool : Pool}

/-- The kept bits of the pieces lie side by side, from bit `a` to bit `b`. -/
def Tiled : Nat → Nat → List Piece → Prop
  | a, b, [] => a = b
  | a, b, piece :: rest => piece.limb.offset = a ∧ 0 < piece.kept ∧
    Tiled (a + piece.kept) b rest

/-- The kept pieces of limbs side by side are side by side. -/
theorem tiled_ofLimbs {rs : RegisterFile} {offset : Nat} (width : Nat)
    (hcont : Limb.Contiguous rs offset limbs) :
    Tiled (min offset width) (min (offset + (limbs.map Limb.width).sum) width)
      ((ofLimbs width limbs).filter fun piece => !decide (piece.kept = 0)) := by
  induction limbs generalizing offset with
  | nil => simp [ofLimbs, Tiled]
  | cons limb rest ih =>
    obtain ⟨hoffset, hwidth, hrest⟩ := hcont
    have htiled := ih hrest
    rw [List.map_cons, List.sum_cons, ← Nat.add_assoc]
    by_cases hpos : 0 < limb.width
    · rw [ofLimbs, List.filter_cons_of_pos (by simpa using hpos), List.map_cons, ← ofLimbs]
      by_cases hkept : min (width - limb.offset) limb.width = 0
      · rw [List.filter_cons_of_neg (by simpa [or_iff_not_imp_left] using hkept)]
        have hsame : min offset width = min (offset + limb.width) width := by omega
        rw [hsame]
        exact htiled
      · rw [List.filter_cons_of_pos (by simpa using hkept)]
        refine ⟨?_, Nat.pos_of_ne_zero hkept, ?_⟩
        · show limb.offset = min offset width
          omega
        · have hnext : min offset width + min (width - limb.offset) limb.width =
              min (offset + limb.width) width := by omega
          rw [hnext]
          exact htiled
    · rw [ofLimbs, List.filter_cons_of_neg (by simpa using hpos), ← ofLimbs]
      obtain hzero : limb.width = 0 := Nat.eq_zero_of_not_pos hpos
      rw [hzero, Nat.add_zero] at htiled ⊢
      exact htiled

/-- Pieces side by side are gathered into registers side by side. -/
theorem gather_tiled (htiled : Tiled a b pieces) (hkept : KeptOf pool.registers limbs pieces) :
    ∃ casts terms later, gather pieces pool = .ok (casts, terms) later ∧ pool.Extends later ∧
      Term.Tiled later.registers a b terms := by
  induction pieces generalizing pool a with
  | nil => exact ⟨[], [], pool, rfl, .refl pool, htiled⟩
  | cons piece pieces ih =>
    obtain ⟨hoffset, hpos, htiled⟩ := htiled
    have hmem : piece ∈ piece :: pieces := List.mem_cons_self
    have hle := hkept.kept_le piece hmem
    unfold gather
    by_cases hcut : piece.kept < piece.limb.width
    · obtain ⟨whole, mid, hwhole⟩ := Pool.allocate_succeeds "tmp" piece.kept pool
      have halloc := Pool.allocate_ok hwhole
      obtain ⟨casts, terms, later, hgather, hgrows, hterms⟩ :=
        ih htiled (hkept.tail.mono halloc.grows.registers)
      have hwidth : later.registers.widthOf whole = piece.kept := by
        rw [halloc.known.widthOf_eq hgrows.registers]
        exact halloc.widthOf_eq
      simp only [hcut, if_true]
      rw [estate_bind_of_ok hwhole, estate_bind_of_ok hgather]
      refine ⟨_, _, later, rfl, halloc.grows.trans hgrows, whole, ?_, ?_, ?_⟩
      · rw [hoffset]
      · omega
      · rwa [hwidth]
    · obtain ⟨casts, terms, later, hgather, hgrows, hterms⟩ := ih htiled hkept.tail
      have hwidth : later.registers.widthOf piece.limb.id = piece.kept := by
        rw [RegisterFile.widthOf_mono hgrows.registers (hkept.declared piece hmem),
          ← hkept.width_eq piece hmem]
        omega
      simp only [hcut, if_false]
      rw [estate_bind_of_ok hgather]
      refine ⟨_, _, later, rfl, hgrows, piece.limb.id, ?_, ?_, ?_⟩
      · rw [hoffset]
      · omega
      · rwa [hwidth]

/-- Pieces side by side that end no later than the targets are moved. -/
theorem move_succeeds {site : Site} {known : RegisterFile} (htiled : Tiled 0 b pieces)
    (hkept : KeptOf pool.registers limbs pieces) (hcont : Limb.Contiguous known 0 targets)
    (hsize : (targets.map Limb.width).sum < Word.modulus)
    (hfit : b ≤ (targets.map Limb.width).sum) :
    ∃ codes later, move site pieces targets pool = .ok codes later := by
  unfold move
  cases hslots : pieces.mapM fun piece => piece.slot? targets with
  | some slots => exact ⟨_, _, rfl⟩
  | none =>
    obtain ⟨casts, terms, mid, hgather, hgrows, hterms⟩ := gather_tiled htiled hkept
    obtain ⟨codes, later, hdistribute⟩ :
        ∃ codes later, distribute site terms targets mid = .ok codes later :=
      distribute_tiled hcont hsize hterms hfit
    refine ⟨casts ++ codes, later, ?_⟩
    show (gather pieces >>= _) pool = _
    rw [estate_bind_of_ok hgather]
    show (distribute site terms targets >>= _) mid = _
    rw [estate_bind_of_ok hdistribute]
    rfl

end Piece

end LimbMachine
