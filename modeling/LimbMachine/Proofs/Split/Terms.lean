import LimbMachine.Proofs.Exec.Effect
import LimbMachine.Proofs.Split.Layout
import LimbMachine.Split.Equations
import Mathlib.Algebra.BigOperators.Group.List.Basic

/-!
# Weighted terms over limbs

A weighted term is distributed over limbs side by side without loss: the parts of its coefficient,
read at the places of the limbs, add up to the weighted coefficient (`Term.join_parts`). So the
right-hand sides of the limb equations add up to the sum of the terms
(`LimbEquation.total_ofTerms`).
-/

namespace LimbMachine

/-! ## Products -/

theorem foldl_mul_eq (load : RegId → Nat) (ids : List RegId) (c : Nat) :
    ids.foldl (fun acc id => acc * load id) c = c * (ids.map load).prod := by
  induction ids generalizing c with
  | nil => simp
  | cons id ids ih =>
    rw [List.foldl_cons, ih, List.map_cons, List.prod_cons]
    ring

theorem Monomial.eval_eq (load : RegId → Nat) (m : Monomial) :
    m.eval load = m.coefficient * (m.vars.map load).prod := foldl_mul_eq load m.vars m.coefficient

theorem Monomial.eval_mapVars (load : RegId → Nat) (f : RegId → RegId) (m : Monomial) :
    (m.mapVars f).eval load = m.eval fun id => load (f id) := by
  simp [eval_eq, mapVars, Function.comp_def]

/-- The value of a right-hand side. -/
abbrev sideValue (load : RegId → Nat) (side : List Monomial) : Nat :=
  (Polynomial.mk side).eval load

theorem sideValue_cons (load : RegId → Nat) (m : Monomial) (side : List Monomial) :
    sideValue load (m :: side) = m.eval load + sideValue load side := by
  simp [sideValue, Polynomial.eval]

theorem sideValue_congr {f g : RegId → Nat} {side : List Monomial}
    (h : ∀ m ∈ side, ∀ id ∈ m.vars, f id = g id) : sideValue f side = sideValue g side := by
  refine Polynomial.eval_congr fun id hid => ?_
  obtain ⟨m, hm, hvar⟩ := Polynomial.mem_registers.1 hid
  exact h m hm id hvar

/-! ## Coefficients -/

theorem Digits.join_zipWith_add {ws ps vs : List Nat} (c : Nat) (hp : ps.length = ws.length)
    (hv : vs.length = ws.length) :
    Digits.join ws (List.zipWith (fun p v => p * c + v) ps vs) =
      Digits.join ws ps * c + Digits.join ws vs := by
  induction ws generalizing ps vs with
  | nil => simp
  | cons w ws ih =>
    cases ps with
    | nil => cases hp
    | cons p ps =>
      cases vs with
      | nil => cases hv
      | cons v vs =>
        simp only [List.length_cons, Nat.add_right_cancel_iff] at hp hv
        rw [List.zipWith_cons_cons, join_cons, join_cons, join_cons, ih hp hv]
        ring

namespace Term

variable {rs : RegisterFile} {limbs : List Limb} {coefficient shift offset : Nat}

/-- The value of a weighted term. -/
def value (load : RegId → Nat) (term : Term) : Nat := 2 ^ term.shift * term.monomial.eval load

theorem value_congr {f g : RegId → Nat} {term : Term}
    (h : ∀ id ∈ term.monomial.vars, f id = g id) : term.value f = term.value g := by
  rw [value, value, Monomial.eval_congr h]

theorem length_carryUp (limbs : List Limb) (n : Nat) : (carryUp limbs n).length = limbs.length := by
  induction limbs generalizing n with
  | nil => rfl
  | cons limb rest ih =>
    cases rest with
    | nil => rfl
    | cons next rest => simp [carryUp, ih]

/-- Carrying up loses nothing. -/
theorem join_carryUp (hne : limbs ≠ []) (n : Nat) :
    Digits.join (limbs.map Limb.width) (carryUp limbs n) = n := by
  induction limbs generalizing n with
  | nil => exact absurd rfl hne
  | cons limb rest ih =>
    cases rest with
    | nil => simp [carryUp]
    | cons next rest =>
      rw [carryUp, List.map_cons, Digits.join_cons, ih (by simp), Nat.shiftRight_eq_div_pow]
      · exact Nat.mod_add_div _ _
      · simp

theorem length_parts (coefficient shift : Nat) (limbs : List Limb) :
    (parts coefficient shift limbs).length = limbs.length := by
  induction limbs with
  | nil => rfl
  | cons limb rest ih =>
    unfold parts
    split
    · simp [ih]
    · rw [length_carryUp]

/-- The parts of a coefficient, read at the places of the limbs, are the weighted coefficient. -/
theorem join_parts (hne : limbs ≠ []) (hcont : Limb.Contiguous rs offset limbs)
    (hle : offset ≤ shift) :
    Digits.join (limbs.map Limb.width) (parts coefficient shift limbs) =
      coefficient * 2 ^ (shift - offset) := by
  induction limbs generalizing offset with
  | nil => exact absurd rfl hne
  | cons limb rest ih =>
    obtain ⟨hoffset, -, hrest⟩ := hcont
    unfold parts
    split
    · rename_i hany
      obtain ⟨next, hnext, hshift⟩ := List.any_eq_true.1 hany
      have hstart := (hrest.bounds hnext).1
      have hshift : next.offset ≤ shift := by simpa using hshift
      have hrest_ne : rest ≠ [] := List.ne_nil_of_mem hnext
      rw [List.map_cons, Digits.join_cons, ih hrest_ne hrest (by omega), Nat.zero_add,
        Nat.mul_left_comm, ← Nat.pow_add, show limb.width + (shift - (offset + limb.width)) =
          shift - offset by omega]
    · rw [join_carryUp (by simp), Nat.shiftLeft_eq, hoffset]

end Term

/-! ## Equations -/

namespace LimbEquation

/-- What a chain of equations stands for: the right-hand sides at the places of their limbs. -/
def total (load : RegId → Nat) (eqs : List LimbEquation) : Nat :=
  Digits.join (eqs.map fun eq => eq.limb.width) (eqs.map fun eq => sideValue load eq.terms)

theorem total_cons (load : RegId → Nat) (eq : LimbEquation) (rest : List LimbEquation) :
    total load (eq :: rest) = sideValue load eq.terms + 2 ^ eq.limb.width * total load rest := rfl

theorem total_congr {f g : RegId → Nat} {eqs : List LimbEquation}
    (h : ∀ eq ∈ eqs, ∀ m ∈ eq.terms, ∀ id ∈ m.vars, f id = g id) :
    total f eqs = total g eqs := by
  unfold total
  rw [List.map_congr_left fun eq heq => sideValue_congr (h eq heq)]

theorem total_eq_zero {load : RegId → Nat} {eqs : List LimbEquation}
    (h : ∀ eq ∈ eqs, eq.terms = []) : total load eqs = 0 := by
  unfold total
  have hzero : (eqs.map fun eq => sideValue load eq.terms) =
      (eqs.map fun eq => eq.limb.width).map fun _ => 0 := by
    rw [List.map_map]
    refine List.map_congr_left fun eq heq => ?_
    rw [h eq heq]
    rfl
  rw [hzero, Digits.join_map_zero]

variable {layout : List Limb} {rs : RegisterFile}

theorem length_addTo (term : Term) (sides : List (List Monomial))
    (h : sides.length = layout.length) : (term.addTo layout sides).length = layout.length := by
  simp [Term.addTo, Term.length_parts, h]

theorem length_sides (terms : List Term) :
    (terms.foldr (Term.addTo layout) (layout.map fun _ => [])).length = layout.length := by
  induction terms with
  | nil => simp
  | cons term terms ih => exact length_addTo term _ ih

theorem map_sideValue_addTo (load : RegId → Nat) (term : Term) (sides : List (List Monomial)) :
    (term.addTo layout sides).map (sideValue load) =
      List.zipWith (fun p v => p * (term.monomial.vars.map load).prod + v)
        (Term.parts term.monomial.coefficient term.shift layout) (sides.map (sideValue load)) := by
  rw [Term.addTo, List.map_zipWith, List.zipWith_map_right]
  congr 1
  funext part side
  split
  · rename_i hzero
    rw [hzero, Nat.zero_mul, Nat.zero_add]
  · rw [sideValue_cons, Monomial.eval_eq]

theorem join_sides (load : RegId → Nat) (hne : layout ≠ [])
    (hcont : Limb.Contiguous rs 0 layout) (terms : List Term) :
    Digits.join (layout.map Limb.width)
      ((terms.foldr (Term.addTo layout) (layout.map fun _ => [])).map (sideValue load)) =
        (terms.map (Term.value load)).sum := by
  induction terms with
  | nil =>
    have hzero : (layout.map fun _ => ([] : List Monomial)).map (sideValue load) =
        (layout.map Limb.width).map fun _ => 0 := by
      rw [List.map_map, List.map_map]
      rfl
    rw [List.foldr_nil, hzero, Digits.join_map_zero]
    rfl
  | cons term terms ih =>
    rw [List.foldr_cons, map_sideValue_addTo, Digits.join_zipWith_add, ih, List.map_cons,
      List.sum_cons, Term.join_parts hne hcont (Nat.zero_le _), Term.value, Monomial.eval_eq,
      Nat.sub_zero]
    · ring
    · rw [Term.length_parts, List.length_map]
    · rw [List.length_map, List.length_map, length_sides]

theorem map_zipWith_mk (layout : List Limb) (sides : List (List Monomial))
    (h : sides.length = layout.length) :
    (List.zipWith mk layout sides).map limb = layout ∧
      (List.zipWith mk layout sides).map LimbEquation.terms = sides := by
  induction layout generalizing sides with
  | nil => exact ⟨rfl, (List.length_eq_zero_iff.1 h).symm⟩
  | cons limb layout ih =>
    cases sides with
    | nil => cases h
    | cons side sides =>
      obtain ⟨hlimbs, hterms⟩ := ih sides (by simpa using h)
      exact ⟨congrArg _ hlimbs, congrArg _ hterms⟩

theorem map_limb_ofTerms (layout : List Limb) (terms : List Term) :
    (ofTerms layout terms).map limb = layout :=
  (map_zipWith_mk layout _ (length_sides terms)).1

/-- The equations of some terms stand for the sum of the terms. -/
theorem total_ofTerms (load : RegId → Nat) (hne : layout ≠ [])
    (hcont : Limb.Contiguous rs 0 layout) (terms : List Term) :
    total load (ofTerms layout terms) = (terms.map (Term.value load)).sum := by
  obtain ⟨hlimbs, hterms⟩ := map_zipWith_mk layout _ (length_sides terms)
  have hwidths : (ofTerms layout terms).map (fun eq => eq.limb.width) = layout.map Limb.width := by
    conv_rhs => rw [← hlimbs, List.map_map]
    rfl
  have hvalues : (ofTerms layout terms).map (fun eq => sideValue load eq.terms) =
      (terms.foldr (Term.addTo layout) (layout.map fun _ => [])).map (sideValue load) := by
    rw [← hterms, List.map_map]
    rfl
  rw [total, hwidths, hvalues, join_sides load hne hcont terms]

theorem vars_addTo {term : Term} {sides : List (List Monomial)} {side : List Monomial}
    {m : Monomial} (hside : side ∈ term.addTo layout sides) (hm : m ∈ side) :
    m.vars = term.monomial.vars ∨ ∃ side' ∈ sides, m ∈ side' := by
  obtain ⟨part, old, hmem, rfl⟩ : ∃ part old, (part, old) ∈
      (Term.parts term.monomial.coefficient term.shift layout).zip sides ∧
        side = if part = 0 then old else ⟨part, term.monomial.vars⟩ :: old := by
    rw [Term.addTo, ← List.map_uncurry_zip_eq_zipWith, List.mem_map] at hside
    obtain ⟨⟨part, old⟩, hmem, rfl⟩ := hside
    exact ⟨part, old, hmem, rfl⟩
  have hold := (List.of_mem_zip hmem).2
  split at hm
  · exact .inr ⟨old, hold, hm⟩
  · rcases List.mem_cons.1 hm with rfl | hm
    · exact .inl rfl
    · exact .inr ⟨old, hold, hm⟩

/-- The equations of some terms read what the terms read. -/
theorem vars_ofTerms {terms : List Term} {eq : LimbEquation} {m : Monomial}
    (heq : eq ∈ ofTerms layout terms) (hm : m ∈ eq.terms) :
    ∃ term ∈ terms, m.vars = term.monomial.vars := by
  have hside : eq.terms ∈ terms.foldr (Term.addTo layout) (layout.map fun _ => []) := by
    rw [← (map_zipWith_mk layout _ (length_sides terms)).2]
    exact List.mem_map_of_mem heq
  generalize eq.terms = side at hside hm
  clear heq
  induction terms generalizing side with
  | nil =>
    obtain ⟨limb, -, rfl⟩ := List.mem_map.1 hside
    cases hm
  | cons term terms ih =>
    rcases vars_addTo hside hm with hvars | ⟨side', hside', hm'⟩
    · exact ⟨term, List.mem_cons_self, hvars⟩
    · obtain ⟨term', hterm', hvars⟩ := ih side' hside' hm'
      exact ⟨term', List.mem_cons_of_mem _ hterm', hvars⟩

end LimbEquation

end LimbMachine
