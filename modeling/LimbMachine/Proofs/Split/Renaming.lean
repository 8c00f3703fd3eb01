import LimbMachine.Proofs.Split.Represents
import LimbMachine.Proofs.Split.Terms

/-!
# Microcodes over other registers

A microcode whose registers all have a single limb keeps its form and runs over those limbs. Such a
renaming keeps widths and tells registers apart (`RegisterFile.Renames`), so a renamed microcode is
runnable where the microcode was (`Microcode.runnable_mapRegs`) and has the same effect, on the
renamed targets (`Microcode.effect_mapRegs`).
-/

namespace LimbMachine

/-- `f` takes the registers `ids` of `rs` one to one to registers of `rs'` of the same widths. -/
structure RegisterFile.Renames (rs rs' : RegisterFile) (f : RegId → RegId) (ids : List RegId) :
    Prop where
  unused : f .unused = .unused
  declares : ∀ id ∈ ids, id.isUsed = true → rs'.declares (f id) = true
  widthOf_eq : ∀ id ∈ ids, rs'.widthOf (f id) = rs.widthOf id
  inj : ∀ id ∈ ids, ∀ id' ∈ ids, f id = f id' → id = id'

namespace RegisterFile.Renames

variable {rs rs' : RegisterFile} {f : RegId → RegId} {ids sub : List RegId} {id : RegId}

theorem of_subset (h : rs.Renames rs' f ids) (hsub : sub ⊆ ids) : rs.Renames rs' f sub where
  unused := h.unused
  declares id hid := h.declares id (hsub hid)
  widthOf_eq id hid := h.widthOf_eq id (hsub hid)
  inj id hid id' hid' := h.inj id (hsub hid) id' (hsub hid')

theorem isUsed_eq (h : rs.Renames rs' f ids) (hid : id ∈ ids) : (f id).isUsed = id.isUsed := by
  cases hu : id.isUsed with
  | false =>
    rw [RegId.eq_unused hu, h.unused]
    rfl
  | true => exact isUsed_of_declares (h.declares id hid hu)

theorem maxOf_eq (h : rs.Renames rs' f ids) (hid : id ∈ ids) :
    rs'.maxOf (f id) = rs.maxOf id := by
  rw [RegisterFile.maxOf_eq, RegisterFile.maxOf_eq, h.widthOf_eq id hid]

theorem widths_map (h : rs.Renames rs' f ids) : rs'.widths (ids.map f) = rs.widths ids := by
  unfold widths
  rw [List.map_map]
  exact List.map_congr_left h.widthOf_eq

theorem filter_map (h : rs.Renames rs' f ids) :
    (ids.map f).filter RegId.isUsed = (ids.filter RegId.isUsed).map f := by
  rw [List.filter_map]
  congr 1
  exact List.filter_congr fun id hid => h.isUsed_eq hid

theorem declares_map (h : rs.Renames rs' f ids) :
    ∀ id ∈ ids.map f, id.isUsed = true → rs'.declares id = true := by
  intro id' hid' hu
  obtain ⟨id, hid, rfl⟩ := List.mem_map.1 hid'
  rw [h.isUsed_eq hid] at hu
  exact h.declares id hid hu

theorem nodup_map (h : rs.Renames rs' f ids) (hnd : ids.Nodup) : (ids.map f).Nodup :=
  hnd.map_on h.inj

theorem storable_map (h : rs.Renames rs' f ids) (hs : rs.Storable ids) :
    rs'.Storable (ids.map f) :=
  ⟨h.nodup_map hs.nodup, h.declares_map, by rw [h.widths_map]; exact hs.size⟩

theorem pivotFrom_map (h : rs.Renames rs' f ids) (width sofar taken : Nat) :
    pivotFrom rs' width sofar taken (ids.map f) = pivotFrom rs width sofar taken ids := by
  induction ids generalizing sofar taken with
  | nil => rfl
  | cons id ids ih =>
    have hrest := h.of_subset (List.subset_cons_self id ids)
    simp only [List.map_cons, pivotFrom, h.widthOf_eq id List.mem_cons_self, ih hrest]

theorem subPivot_map (h : rs.Renames rs' f ids) (width : Nat) :
    subPivot (ids.map f) rs' width = subPivot ids rs width := by
  unfold subPivot
  rw [h.pivotFrom_map]

/-- A renamed subtraction shares out its targets in the same way. -/
theorem subtractable_map {targets subtrahends : List RegId} {minuend : RegId} {constant pivot : Nat}
    (ht : rs.Renames rs' f targets) (hs : rs.Renames rs' f (minuend :: subtrahends))
    (h : rs.Subtractable targets minuend subtrahends constant pivot) :
    rs'.Subtractable (targets.map f) (f minuend) (subtrahends.map f) constant pivot := by
  have hlow := ht.of_subset (List.take_subset pivot targets)
  have hhigh := ht.of_subset (List.drop_subset pivot targets)
  have hmin := hs.widthOf_eq minuend List.mem_cons_self
  have hmax : (subtrahends.map f).map rs'.maxOf = subtrahends.map rs.maxOf := by
    rw [List.map_map]
    exact List.map_congr_left fun id hid => hs.maxOf_eq (List.mem_cons_of_mem _ hid)
  refine ⟨ht.nodup_map h.nodup, ?_, ?_, ?_, ?_, ?_⟩
  · rw [hmin, ht.subPivot_map]
    exact h.pivot_eq
  · rw [← List.map_take, hlow.widths_map, hmin]
    exact h.width_eq
  · rw [← List.map_take]
    exact hlow.storable_map h.low
  · rw [← List.map_drop]
    exact hhigh.storable_map h.high
  · rw [← List.map_drop, hhigh.widths_map, hmax, hmin]
    exact h.borrow_lt

end RegisterFile.Renames

theorem Polynomial.eval_mapVars {load load' : RegId → Nat} {f : RegId → RegId} {p : Polynomial}
    (h : ∀ id ∈ p.registers, load' (f id) = load id) :
    (p.mapVars f).eval load' = p.eval load := by
  unfold eval mapVars
  rw [List.map_map]
  refine congrArg List.sum (List.map_congr_left fun m hm => ?_)
  rw [Function.comp_apply, Monomial.eval_mapVars]
  refine Monomial.eval_congr fun id hid => h id ?_
  exact mem_registers.2 ⟨m, hm, hid⟩

namespace Microcode

/-- A renaming that keeps the left-out id needs no exception for it. -/
theorem guarded_eq {f : RegId → RegId} (h : f .unused = .unused) (id : RegId) :
    (if id.isUsed then f id else id) = f id := by
  cases id with
  | unused => exact h.symm
  | reg i => rfl

theorem polynomial?_mapRegs {f : RegId → RegId} (h : f .unused = .unused) (code : Microcode) :
    (code.mapRegs f).polynomial? = code.polynomial?.map (Polynomial.mapVars f) := by
  have hg := guarded_eq h
  have hpush : ∀ (p : Polynomial) (m : Monomial),
      (p.push m).mapVars f = (p.mapVars f).push (m.mapVars f) := by
    intro p m
    by_cases hzero : m.coefficient = 0
    · simp [Polynomial.push, Monomial.mapVars, hzero]
    · simp [Polynomial.push, Polynomial.mapVars, Monomial.mapVars, hzero]
  cases code with
  | assign targets rhs => simp [mapRegs, polynomial?, hg]
  | add targets sources constant =>
    simp only [mapRegs, polynomial?, hg, Option.map_some, hpush]
    simp [Polynomial.sum, Polynomial.mapVars, Monomial.mapVars, Function.comp_def]
  | mul targets sources constant =>
    simp only [mapRegs, polynomial?, hg, Option.map_some, hpush]
    rfl
  | _ => rfl

theorem targets_mapRegs {f : RegId → RegId} (h : f .unused = .unused) (code : Microcode) :
    (code.mapRegs f).targets = code.targets.map f := by
  have hg := guarded_eq h
  cases code with
  | _ => simp [mapRegs, targets, hg]

section Renamed

variable {rs rs' : RegisterFile} {f : RegId → RegId} {code : Microcode}

theorem registers_subset {p : Polynomial} (h : code.polynomial? = some p) :
    p.registers ⊆ code.operands := by
  intro id hid
  obtain ⟨m, hm, hvar⟩ := Polynomial.mem_registers.1 hid
  cases code with
  | assign targets rhs =>
    cases h
    exact hid
  | add targets sources constant =>
    cases h
    by_cases hzero : constant = 0
    · simp only [Polynomial.push, hzero, if_true, Polynomial.sum, List.mem_map] at hm
      obtain ⟨source, hsource, rfl⟩ := hm
      rw [List.mem_singleton.1 hvar]
      exact hsource
    · simp only [Polynomial.push, hzero, if_false, Polynomial.sum, List.mem_append, List.mem_map,
        List.mem_singleton] at hm
      obtain ⟨source, hsource, rfl⟩ | rfl := hm
      · rw [List.mem_singleton.1 hvar]
        exact hsource
      · cases hvar
  | mul targets sources constant =>
    cases h
    by_cases hzero : constant = 0
    · simp [Polynomial.push, hzero, Polynomial.zero] at hm
    · simp only [Polynomial.push, hzero, if_false, Polynomial.zero, List.nil_append,
        List.mem_singleton] at hm
      subst hm
      exact hvar
  | _ => cases h

/-- The largest value of a renamed right-hand side is the same. -/
theorem maxValue_mapRegs (h : rs.Renames rs' f (code.operands ++ code.targets)) {p : Polynomial}
    (hp : code.polynomial? = some p) : (p.mapVars f).maxValue rs' = p.maxValue rs :=
  Polynomial.eval_mapVars fun _ hid =>
    h.maxOf_eq (List.mem_append_left _ (registers_subset hp hid))

/-- A renamed microcode is runnable where the microcode was. -/
theorem runnable_mapRegs (h : rs.Renames rs' f (code.operands ++ code.targets))
    (hrun : code.Runnable rs) : (code.mapRegs f).Runnable rs' := by
  have hg := guarded_eq h.unused
  have htargets := h.of_subset (List.subset_append_right code.operands code.targets)
  have hoperands := h.of_subset (List.subset_append_left code.operands code.targets)
  -- a sum or product fits its renamed targets
  have hsum : ∀ {p : Polynomial}, code.polynomial? = some p →
      (code.mapRegs f).Runnable rs' := by
    intro p hp
    obtain ⟨hstore, hmax⟩ := (runnable_sum_iff hp).1 hrun
    have hp' := polynomial?_mapRegs h.unused code
    rw [hp, Option.map_some] at hp'
    rw [runnable_sum_iff hp', targets_mapRegs h.unused, maxValue_mapRegs h hp, htargets.widths_map]
    exact ⟨htargets.storable_map hstore, hmax⟩
  cases code with
  | assign targets rhs => exact hsum rfl
  | add targets sources constant => exact hsum rfl
  | mul targets sources constant => exact hsum rfl
  | sub targets sources constant =>
    obtain ⟨minuend, subtrahends, pivot, rfl, hsub⟩ := hrun
    simp only [mapRegs, hg, List.map_cons]
    exact ⟨f minuend, subtrahends.map f, pivot, rfl, htargets.subtractable_map hoperands hsub⟩
  | cast targets source width =>
    simp only [mapRegs, hg]
    have hwidths : rs'.widths (targets.map f) = rs.widths targets := htargets.widths_map
    refine ⟨htargets.storable_map hrun.1, ?_⟩
    rw [hwidths]
    exact hrun.2
  | div quotient remainder witness dividend divisor =>
    obtain ⟨hnd, -, hquot, hrem, hwit⟩ := hrun
    have hwrites : (div (f quotient) (f remainder) (f witness) (f dividend) (f divisor)).writes =
        ([quotient, remainder, witness].filter RegId.isUsed).map f := htargets.filter_map
    have hused : rs.Renames rs' f ([quotient, remainder, witness].filter RegId.isUsed) :=
      htargets.of_subset (List.filter_subset_self _)
    have hwidth : ∀ id ∈ [dividend, divisor] ++ [quotient, remainder, witness],
        rs'.widthOf (f id) = rs.widthOf id := h.widthOf_eq
    simp only [List.cons_append, List.nil_append, List.forall_mem_cons] at hwidth
    obtain ⟨hdividend, hdivisor, hquotient, hremainder, hwitness, -⟩ := hwidth
    simp only [mapRegs, hg]
    refine ⟨by rw [hwrites]; exact hused.nodup_map hnd, fun id hid => ?_, by omega, by omega,
      fun hu => ?_⟩
    · exact htargets.declares_map id (List.mem_filter.1 hid).1 (List.mem_filter.1 hid).2
    · have hwu : (f witness).isUsed = witness.isUsed :=
        htargets.isUsed_eq (by simp [Microcode.targets])
      have := hwit (hwu ▸ hu)
      omega
  | skip left right constant distance => trivial
  | skipIf left right constant distance =>
    have hleft := hoperands.of_subset (List.subset_append_left left right)
    have hright := hoperands.of_subset (List.subset_append_right left right)
    simp only [mapRegs, hg]
    refine ⟨?_, ?_⟩
    · rw [hleft.widths_map]
      exact hrun.1
    · rw [hright.widths_map]
      exact hrun.2
  | call bus targets sources =>
    simp only [mapRegs, hg]
    refine ⟨htargets.nodup_map hrun.1, fun id hid => ?_⟩
    exact htargets.declares_map id (List.mem_filter.1 hid).1 (List.mem_filter.1 hid).2
  | jmp target => trivial
  | ret => trivial
  | fail => trivial

/-- A renamed microcode computes the same number from the same values. -/
theorem value_mapRegs (h : rs.Renames rs' f (code.operands ++ code.targets))
    {load load' : RegId → Nat} (hload : ∀ id ∈ code.operands, load' (f id) = load id) :
    (code.mapRegs f).value rs' load' = code.value rs load := by
  have hg := guarded_eq h.unused
  cases hp : code.polynomial? with
  | some p =>
    rw [value_eq_eval hp, value_eq_eval (p := p.mapVars f)]
    · exact Polynomial.eval_mapVars fun id hid => hload id (registers_subset hp hid)
    · rw [polynomial?_mapRegs h.unused, hp]
      rfl
  | none =>
    cases code with
    | sub targets sources constant =>
      cases sources with
      | nil => rfl
      | cons minuend subtrahends =>
        have hmin := h.widthOf_eq minuend (List.mem_append_left _ List.mem_cons_self)
        have hsubs : (subtrahends.map f).map load' = subtrahends.map load := by
          rw [List.map_map]
          exact List.map_congr_left fun id hid => hload id (List.mem_cons_of_mem _ hid)
        simp only [mapRegs, hg, List.map_cons, value, hmin, hsubs]
        rw [hload minuend List.mem_cons_self]
    | cast targets source width =>
      simp only [mapRegs, hg, value]
      exact hload source List.mem_cons_self
    | assign targets rhs => cases hp
    | add targets sources constant => cases hp
    | mul targets sources constant => cases hp
    | _ => rfl

/-- A renamed microcode has the same effect, on the renamed targets. -/
theorem effect_mapRegs (h : rs.Renames rs' f (code.operands ++ code.targets))
    {load load' : RegId → Nat} (hload : ∀ id ∈ code.operands, load' (f id) = load id) :
    (code.mapRegs f).effect rs' load' =
      { code.effect rs load with targets := (code.effect rs load).targets.map f } := by
  have hg := guarded_eq h.unused
  have hvalue := value_mapRegs h hload
  have hwidths : rs'.widths (code.targets.map f) = rs.widths code.targets :=
    (h.of_subset (List.subset_append_right code.operands code.targets)).widths_map
  -- packed lists among the operands read the same
  have hjoin : ∀ {ids : List RegId}, ids ⊆ code.operands →
      Digits.join (rs'.widths (ids.map f)) ((ids.map f).map load') =
        Digits.join (rs.widths ids) (ids.map load) := by
    intro ids hsub
    rw [(h.of_subset (List.Subset.trans hsub (List.subset_append_left _ _))).widths_map,
      List.map_map]
    exact congrArg _ (List.map_congr_left fun id hid => hload id (hsub hid))
  -- what a sum or product comes to is cut at the same places
  have hsum : ∀ {p : Polynomial}, code.polynomial? = some p →
    (code.mapRegs f).effect rs' load' =
      { code.effect rs load with targets := (code.effect rs load).targets.map f } := by
    intro p hp
    have hp' := polynomial?_mapRegs h.unused code
    rw [hp, Option.map_some] at hp'
    rw [value_eq_eval hp', value_eq_eval hp] at hvalue
    rw [effect_sum hp', effect_sum hp, targets_mapRegs h.unused, hwidths, hvalue]
  cases code with
  | assign targets rhs => exact hsum rfl
  | add targets sources constant => exact hsum rfl
  | mul targets sources constant => exact hsum rfl
  | sub targets sources constant =>
    simp only [mapRegs, hg] at hvalue ⊢
    simp only [effect, hvalue]
    rw [Microcode.targets] at hwidths
    rw [hwidths]
  | cast targets source width =>
    have hsource : load' (f source) = load source := hload source List.mem_cons_self
    simp only [mapRegs, hg] at hvalue ⊢
    simp only [effect, hvalue, hsource]
    rw [Microcode.targets] at hwidths
    rw [hwidths]
    split
    · rfl
    · rfl
  | div quotient remainder witness dividend divisor =>
    have hdividend : load' (f dividend) = load dividend := hload dividend List.mem_cons_self
    have hdivisor : load' (f divisor) = load divisor :=
      hload divisor (List.mem_cons_of_mem _ List.mem_cons_self)
    simp only [mapRegs, hg, effect, hdividend, hdivisor]
    split
    · rfl
    · rfl
  | skip left right constant distance =>
    have hleft : load' (f left) = load left := hload left List.mem_cons_self
    have hright : load' (f right) = load right :=
      hload right (List.mem_cons_of_mem _ List.mem_cons_self)
    have hused : (f right).isUsed = right.isUsed :=
      h.isUsed_eq (List.mem_append_left _ (List.mem_cons_of_mem _ List.mem_cons_self))
    simp only [mapRegs, hg, effect, hleft, hright, hused]
    rfl
  | skipIf left right constant distance =>
    have hleft := hjoin (List.subset_append_left left right)
    have hright := hjoin (List.subset_append_right left right)
    simp only [mapRegs, hg, effect, hleft, hright, List.map_eq_nil_iff]
    rfl
  | call bus targets sources => rfl
  | jmp target => rfl
  | ret => rfl
  | fail => rfl

end Renamed

end Microcode

end LimbMachine
