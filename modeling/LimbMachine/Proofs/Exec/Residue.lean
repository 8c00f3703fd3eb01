import LimbMachine.Proofs.Exec.Footprint

/-!
# Storing modulo the width of the targets

A number of any sign and length that is spread over distinct targets leaves its residue modulo
`2 ^ width` in them, whether it is accepted or not (`State.TakesResidue`). The total width of the
targets is a size: it is the last of the offsets that are added up on the way, so a machine that
checks its sums has an answer exactly then.
-/

namespace LimbMachine

namespace State

variable {s : State} {targets : List RegId}

/-- Spreading `v` writes its residue. It succeeds for a number below `2 ^` the total width of the
targets, and so for every negative one; whether it succeeds or fails, the targets then hold `v`
modulo that power. -/
structure TakesResidue (s : State) (targets : List RegId) (v : Int) : Prop where
  succeeds_iff : (∃ s₁, storeAcross v targets s = .ok () s₁) ↔
    v < 2 ^ (s.registers.widths targets).sum
  packed_eq : ((finalState (storeAcross v targets s)).pack targets : Int) =
    v % 2 ^ (s.registers.widths targets).sum

theorem takesResidue (v : Int) (hs : s.values.length = s.registers.length) (hnd : targets.Nodup)
    (hdecl : ∀ id ∈ targets, s.registers.declares id = true)
    (hsize : (s.registers.widths targets).sum < Word.modulus) : s.TakesResidue targets v := by
  obtain ⟨s₁, hstore, h₁⟩ :=
    storeAcross_assigned v hs hnd (fun id hid _ => hdecl id hid) hsize
  have hpos : (0 : Int) < 2 ^ (s.registers.widths targets).sum := by positivity
  have hnonneg : 0 ≤ v % 2 ^ (s.registers.widths targets).sum := Int.emod_nonneg v hpos.ne'
  have hlt : (v % 2 ^ (s.registers.widths targets).sum).toNat <
      2 ^ (s.registers.widths targets).sum := by
    have hmod := Int.emod_lt_of_pos v hpos
    rw [← Int.toNat_of_nonneg hnonneg] at hmod
    exact_mod_cast hmod
  have hsize₁ : (s₁.registers.widths targets).sum < Word.modulus := by rwa [h₁.registers_eq]
  constructor
  · rw [hstore]
    split
    · exact iff_of_true ⟨s₁, rfl⟩ ‹_›
    · refine iff_of_false ?_ ‹_›
      rintro ⟨_, hok⟩
      cases hok
  · have hleft : finalState (storeAcross v targets s) = s₁ := by
      rw [hstore]
      split <;> rfl
    rw [hleft, s₁.pack_eq hsize₁, h₁.packed_eq hlt, Int.toNat_of_nonneg hnonneg]

/-- **Storing a number**: what is spread over distinct declared targets is the residue of the
number. No sum overruns on the way, and no other register changes. A slice of the number as it is
spread has the bits of the number at every offset and of every width, also far above the length of
a negative one, as long as the end of the slice is a size. -/
theorem storeAcross_residue (v : Int) (hs : s.values.length = s.registers.length)
    (hnd : targets.Nodup) (hdecl : ∀ id ∈ targets, s.registers.declares id = true)
    (hsize : (s.registers.widths targets).sum < Word.modulus) :
    storeAcross? v targets s = some (storeAcross v targets s) ∧
    s.TakesResidue targets v ∧
    (∀ id, id ∉ targets → (finalState (storeAcross v targets s)).load id = s.load id) ∧
    ∀ offset width : Nat, (v < 0 → offset + width < Word.modulus) →
      ∃ slice : Nat, extendedSlice? (decide (v < 0)) (spreadSource v) offset width =
        some slice ∧ (slice : Int) = v / 2 ^ offset % 2 ^ width := by
  refine ⟨?_, takesResidue v hs hnd hdecl hsize, ?_, ?_⟩
  · refine Word.checked_eq_some.2 ⟨?_, rfl⟩
    rw [storeOverruns_eq (fun id hid _ => hdecl id hid) Word.modulus_pos, Nat.zero_add]
    exact Word.overruns_eq_false.2 hsize
  · exact keeps_storeAcross (R := Outside targets) (fun _ hid => keeps_store hid) v s
  · intro offset width hend
    refine ⟨_, Word.checked_eq_some.2 ⟨?_, rfl⟩, extendedSlice_spreadSource v hend⟩
    by_cases hneg : v < 0
    · rw [Word.overruns_eq_false.2 (hend hneg), Bool.and_false]
    · rw [decide_eq_false hneg, Bool.false_and]

/-- Two registers with one of no bits between them, and one that is no target. -/
def uneven : State where
  registers := [⟨.output, "low", 3, 0⟩, ⟨.output, "none", 0, 0⟩,
    ⟨.output, "high", 5, 0⟩, ⟨.temp, "spare", 4, 0⟩]
  values := [1, 0, 2, 9]

theorem storeAcross_residue_uneven :
    let targets : List RegId := [.reg 0, .reg 1, .reg 2]
    (targets.Nodup ∧ ∀ id ∈ targets, uneven.registers.declares id = true) ∧
    ((∃ s₁, storeAcross (-300) targets uneven = .ok () s₁) ∧
      (finalState (storeAcross (-300) targets uneven)).pack targets = 212) ∧
    ((¬ ∃ s₁, storeAcross 300 targets uneven = .ok () s₁) ∧
      (finalState (storeAcross 300 targets uneven)).pack targets = 44) ∧
    (finalState (storeAcross 300 targets uneven)).load (.reg 3) = 9 ∧
    extendedSlice? true (spreadSource (-300)) 100 3 = some 7 := by
  intro targets
  have hnd : targets.Nodup := by decide
  have hdecl : ∀ id ∈ targets, uneven.registers.declares id = true := by decide
  have hsize : (uneven.registers.widths targets).sum < Word.modulus := by decide
  obtain ⟨-, hbelow, -, hslices⟩ := storeAcross_residue (s := uneven) (-300) rfl hnd hdecl hsize
  obtain ⟨-, habove, houtside, -⟩ := storeAcross_residue (s := uneven) 300 rfl hnd hdecl hsize
  obtain ⟨slice, hslice, heq⟩ := hslices 100 3 (by decide)
  have hlow : (finalState (storeAcross (-300) targets uneven)).pack targets =
      (-300 : Int) % 2 ^ 8 :=
    hbelow.packed_eq
  have hhigh : (finalState (storeAcross 300 targets uneven)).pack targets = (300 : Int) % 2 ^ 8 :=
    habove.packed_eq
  have hrefused : ¬ (300 : Int) < 2 ^ (uneven.registers.widths targets).sum := by decide
  refine ⟨⟨hnd, hdecl⟩, ⟨hbelow.succeeds_iff.2 (by decide), ?_⟩,
    ⟨fun hok => hrefused (habove.succeeds_iff.1 hok), ?_⟩, houtside _ (by decide), ?_⟩
  · norm_num at hlow
    exact_mod_cast hlow
  · norm_num at hhigh
    exact_mod_cast hhigh
  · norm_num at heq
    rw [decide_eq_true (by decide)] at hslice
    rw [hslice]
    exact congrArg some (by exact_mod_cast heq)

end State

end LimbMachine
