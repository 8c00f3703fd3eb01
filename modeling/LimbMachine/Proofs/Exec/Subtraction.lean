import LimbMachine.Proofs.Check.Accepted
import Mathlib.Data.Rat.Floor

/-!
# What a subtraction stores and when it fails

The targets before the pivot take any difference, so a subtraction fails only where the borrow is
too large for the targets after it (`Microcode.execute_sub_eq`). The check bounds the largest
borrow, hence an accepted subtraction succeeds in every state that fits, and difference and borrow
balance (`Microcode.sub_balances`).
-/

namespace LimbMachine

section Outcome

variable {s : State} {targets : List RegId} {minuend : RegId} {pivot : Nat}

/-- The difference fits the targets before the pivot, so it is up to the borrow whether a
subtraction succeeds. -/
theorem State.subtract_eq (constant : Nat) (subtrahends : List RegId) (hs : s.Fits)
    (hdecl : ∀ id ∈ targets, id.isUsed = true → s.registers.declares id = true)
    (hpivot : subPivot targets s.registers (s.registers.widthOf minuend) = some pivot) :
    let borrow := borrowsFor (constant + (subtrahends.map s.load).sum - s.load minuend)
      (s.registers.widthOf minuend)
    ∃ s₁, subtract targets (minuend :: subtrahends) constant s =
      if borrow < 2 ^ s.registers.totalWidth (targets.drop pivot) then .ok () s₁
      else .error (s.registers.tooWide (targets.drop pivot) borrow) s₁ := by
  intro borrow
  have hmin : (s.load minuend : Int) < 2 ^ s.registers.widthOf minuend := by
    exact_mod_cast hs.load_lt minuend
  have htake : ∀ id ∈ targets.take pivot, id.isUsed = true → s.registers.declares id = true :=
    fun id hid => hdecl id (List.mem_of_mem_take hid)
  have hdrop : ∀ id ∈ targets.drop pivot, id.isUsed = true → s.registers.declares id = true :=
    fun id hid => hdecl id (List.mem_of_mem_drop hid)
  obtain ⟨s₁, hregs, hlen, hlow⟩ := storeAcross_eq
    (s.load minuend - (constant + (subtrahends.map s.load).sum : Nat)) hs.length_eq htake
  rw [subPivot_totalWidth hpivot, if_pos (by omega)] at hlow
  have hlen₁ : s₁.values.length = s₁.registers.length := by rw [hlen, hregs, hs.length_eq]
  obtain ⟨s₂, -, -, hhigh⟩ := storeAcross_eq borrow hlen₁ (hregs ▸ hdrop)
  refine ⟨s₂, ?_⟩
  unfold subtract
  rw [estate_get_bind]
  simp only [List.head?_cons, Option.map_some, Option.getD_some, List.tail_cons, hpivot]
  rw [estate_bind_of_ok hlow, hhigh, hregs, Int.toNat_natCast]
  exact_mod_cast rfl

theorem Microcode.execute_sub_eq (constant : Nat) (subtrahends : List RegId) (hs : s.Fits)
    (hdecl : ∀ id ∈ targets, id.isUsed = true → s.registers.declares id = true)
    (hpivot : subPivot targets s.registers (s.registers.widthOf minuend) = some pivot) :
    let borrow := borrowsFor (constant + (subtrahends.map s.load).sum - s.load minuend)
      (s.registers.widthOf minuend)
    ∃ s₁, ∀ {σ : Type} (io : Boundary σ) (m : σ),
      (sub targets (minuend :: subtrahends) constant).execute io ⟨s, m⟩ =
        if borrow < 2 ^ s.registers.totalWidth (targets.drop pivot) then .ok (.skip 1) ⟨s₁, m⟩
        else .error (s.registers.tooWide (targets.drop pivot) borrow) ⟨s₁, m⟩ := by
  intro borrow
  obtain ⟨s₁, h⟩ := State.subtract_eq constant subtrahends hs hdecl hpivot
  refine ⟨s₁, fun io m => ?_⟩
  unfold execute
  rw [estate_get_bind]
  by_cases hfits : borrow < 2 ^ s.registers.totalWidth (targets.drop pivot)
  · rw [if_pos hfits] at h ⊢
    exact estate_bind_of_ok (Frame.onState_ok h m)
  · rw [if_neg hfits] at h ⊢
    exact estate_bind_of_error (Frame.onState_error h m)

end Outcome

/-- The borrow is the deficit in units of `2 ^ width`, rounded up. -/
theorem Balances.ceil_eq {minuend subtracted width low borrow : Nat} {difference : Int}
    (h : Balances minuend subtracted width low borrow)
    (hdiff : difference = minuend - subtracted) :
    ⌈(-difference : ℚ) / 2 ^ width⌉ = borrow := by
  have hpos : (0 : ℚ) < 2 ^ width := by positivity
  have hlow : (low : ℚ) < 2 ^ width := by exact_mod_cast h.low_lt
  have hlow₀ : (0 : ℚ) ≤ low := Nat.cast_nonneg low
  have hsum : (low : ℚ) + subtracted = minuend + 2 ^ width * borrow := by exact_mod_cast h.sum_eq
  rw [Int.ceil_eq_iff, lt_div_iff₀ hpos, div_le_iff₀ hpos, hdiff]
  push_cast
  constructor
  · linarith
  · linarith

namespace Microcode

/-- What a subtraction leaves in its targets balances. -/
theorem Does.balances {s s₁ : State} {targets subtrahends : List RegId} {minuend : RegId}
    {constant pivot : Nat} {step : Step}
    (hdoes : (sub targets (minuend :: subtrahends) constant).Does s step s₁) (hs : s.Fits)
    (hsub : s.registers.Subtractable targets minuend subtrahends constant pivot) :
    Balances (s.load minuend) (constant + (subtrahends.map s.load).sum)
      (s.registers.widthOf minuend) (s₁.pack (targets.take pivot))
        (s₁.pack (targets.drop pivot)) := by
  have hrun : (sub targets (minuend :: subtrahends) constant).Runnable s.registers :=
    ⟨minuend, subtrahends, pivot, rfl, hsub⟩
  obtain ⟨s₂, hdoes₂, hassigned, -⟩ := does_effect rfl hrun hs
  obtain ⟨-, rfl⟩ := hdoes.unique hdoes₂
  have hregs := hassigned.registers_eq
  rw [s₁.pack_eq (hregs ▸ hsub.low.size), s₁.pack_eq (hregs ▸ hsub.high.size)]
  exact hassigned.balances hs hsub

/-- An accepted subtraction succeeds in every state that fits. The targets before the pivot then
hold a number of the minuend's width, those after it how often that width was borrowed, and the two
account for the subtraction. Sources are read before any target is stored, so they may overlap. -/
theorem sub_balances {scope : Scope} {targets sources : List RegId} {constant : Nat}
    (hvalid : (sub targets sources constant).validate scope = .ok ()) :
    ∃ minuend subtrahends pivot, sources = minuend :: subtrahends ∧
      subPivot targets scope.registers (scope.registers.widthOf minuend) = some pivot ∧
      ∀ s : State, s.registers = scope.registers → s.Fits →
        ∃ s₁, (sub targets sources constant).Does s (.skip 1) s₁ ∧
          ((sub targets sources constant).Sized scope.registers →
            let width := scope.registers.widthOf minuend
            let difference : Int := s.load minuend - (subtrahends.map s.load).sum - constant
            let low := s₁.pack (targets.take pivot)
            let borrow := s₁.pack (targets.drop pivot)
            low < 2 ^ width ∧
              low + (subtrahends.map s.load).sum + constant = s.load minuend + borrow *
              2 ^ width ∧ (borrow : Int) = max 0 ⌈(-difference : ℚ) / 2 ^ width⌉) := by
  obtain ⟨hknown, hwritable, minuend, subtrahends, pivot, rfl, hrule⟩ :=
    validate_ok_iff.1 hvalid
  have hdecl : ∀ id ∈ targets, id.isUsed = true → scope.registers.declares id = true :=
    declares_targets rfl hknown
  refine ⟨minuend, subtrahends, pivot, rfl, hrule.pivot_eq, fun s hregs hs => ?_⟩
  obtain ⟨s₁, hexec⟩ := execute_sub_eq constant subtrahends hs (hregs ▸ hdecl)
    (hregs ▸ hrule.pivot_eq)
  -- the borrow that was checked is the one for the largest subtrahends
  have hborrow := Nat.lt_of_le_of_lt (hs.borrowsFor_le minuend subtrahends constant _)
    (bitLength_le_iff.1 (hregs ▸ hrule.borrow_le))
  have hdoes : (sub targets (minuend :: subtrahends) constant).Does s (.skip 1) s₁ :=
    fun io m => by rw [hexec io m, if_pos hborrow]
  refine ⟨s₁, hdoes, ?_⟩
  intro hsized width difference low borrow
  have hsub := subtractable_of_rule hwritable hdecl hrule hsized
  rw [← hregs] at hsub
  have hbal := hdoes.balances hs hsub
  rw [hregs] at hbal
  refine ⟨hbal.low_lt, ?_, ?_⟩
  · calc low + (subtrahends.map s.load).sum + constant
        = low + (constant + (subtrahends.map s.load).sum) := by ring
      _ = s.load minuend + 2 ^ width * borrow := hbal.sum_eq
      _ = s.load minuend + borrow * 2 ^ width := by rw [Nat.mul_comm borrow]
  · rw [hbal.ceil_eq (by omega), max_eq_right (Int.natCast_nonneg _)]

/-- A subtraction whose first target is also a subtrahend. -/
def overwriting : Microcode := .sub [.reg 1, .reg 2] [.reg 0, .reg 1] 1

/-- The registers `x`, `y` and `borrow`. -/
def overwritingScope : Scope where
  field := .unbounded
  registers := [⟨.input, "x", 8, 0⟩, ⟨.temp, "y", 8, 0⟩, ⟨.output, "borrow", 1, 0⟩]
  buses := []
  instructions := 1

theorem sub_balances_overwriting : overwriting.validate overwritingScope = .ok () ∧
    overwriting.Sized overwritingScope.registers ∧
    ∃ s₁, overwriting.Does ⟨overwritingScope.registers, [3, 200, 0], 0⟩ (.skip 1) s₁ ∧
      s₁.pack [.reg 1] = 58 ∧ s₁.pack [.reg 2] = 1 := by
  have hvalid : overwriting.validate overwritingScope = .ok () := rfl
  have hsized : overwriting.Sized overwritingScope.registers := by decide
  obtain ⟨minuend, subtrahends, pivot, hsources, hpivot, hrun⟩ := sub_balances hvalid
  cases hsources
  cases (show some 1 = some pivot from hpivot)
  have hfits : State.Fits ⟨overwritingScope.registers, [3, 200, 0], 0⟩ :=
    .of_zip rfl (by decide)
  obtain ⟨s₁, hdoes, hbal⟩ := hrun _ rfl hfits
  obtain ⟨hlow, hsum, -⟩ := hbal hsized
  have hlow' : s₁.pack [.reg 1] < 256 := hlow
  have hsum' : s₁.pack [.reg 1] + 200 + 1 = 3 + s₁.pack [.reg 2] * 256 := hsum
  exact ⟨hvalid, hsized, s₁, hdoes, by omega, by omega⟩

end Microcode

end LimbMachine
