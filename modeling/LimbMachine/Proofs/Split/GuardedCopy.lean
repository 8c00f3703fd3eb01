import LimbMachine.Proofs.Split.Fragments
import LimbMachine.Proofs.Split.Polynomials
import LimbMachine.Split.GuardedCopy

/-!
# Casts over limbs

A value fits into the width of a cast exactly if every limb fits into what the width leaves of it
(`Limb.Contiguous.packed_lt_iff`), so the guards and the casts of single limbs fail together with
the cast. If none fails, the pieces that are copied or distributed make up the value
(`splitCast_runs`).
-/

namespace LimbMachine

/-- A packed value fits exactly if every limb fits into what is left for it. -/
theorem Limb.Contiguous.packed_lt_iff {s : State} {offset width : Nat} {limbs : List Limb}
    (hs : s.Fits) (h : Limb.Contiguous s.registers offset limbs) :
    s.packed (Limb.ids limbs) < 2 ^ (width - offset) ↔
      ∀ limb ∈ limbs, s.load limb.id < 2 ^ (width - limb.offset) := by
  induction limbs generalizing offset with
  | nil => simp [State.packed_nil]
  | cons limb rest ih =>
    obtain ⟨hoffset, hwidth, hrest⟩ := h
    have hload := hs.load_lt limb.id
    rw [← hwidth] at hload
    have hpacked : s.packed (Limb.ids (limb :: rest)) =
        s.load limb.id + 2 ^ limb.width * s.packed (Limb.ids rest) := by
      rw [Limb.ids_cons, State.packed_cons, hwidth]
    rw [hpacked, List.forall_mem_cons, ← ih hrest, hoffset]
    rcases Nat.lt_or_ge (width - offset) limb.width with hlt | hge
    · -- the width ends within this limb, and nothing may stand above
      have hzero : width - (offset + limb.width) = 0 := by omega
      rw [hzero, Nat.pow_zero, Nat.lt_one_iff]
      have hpow : 2 ^ (width - offset) ≤ 2 ^ limb.width :=
        Nat.pow_le_pow_right (by decide) (by omega)
      constructor
      · intro hsum
        have : s.packed (Limb.ids rest) = 0 := by
          by_contra hpos
          have := Nat.mul_le_mul_left (2 ^ limb.width) (Nat.one_le_iff_ne_zero.2 hpos)
          omega
        rw [this, Nat.mul_zero, Nat.add_zero] at hsum
        exact ⟨hsum, this⟩
      · rintro ⟨hlow, hhigh⟩
        rw [hhigh, Nat.mul_zero, Nat.add_zero]
        exact hlow
    · -- this limb is kept whole
      have hsplit :
          2 ^ (width - offset) = 2 ^ limb.width * 2 ^ (width - (offset + limb.width)) := by
        rw [← Nat.pow_add]
        congr 1
        omega
      have hlow : s.load limb.id < 2 ^ (width - offset) :=
        Nat.lt_of_lt_of_le hload (Nat.pow_le_pow_right (by decide) hge)
      rw [hsplit]
      constructor
      · intro hsum
        refine ⟨by rw [← hsplit]; exact hlow, ?_⟩
        have : 2 ^ limb.width * s.packed (Limb.ids rest) <
          2 ^ limb.width * 2 ^ (width - (offset + limb.width)) := by omega
        exact Nat.lt_of_mul_lt_mul_left this
      · rintro ⟨-, hhigh⟩
        have := Nat.mul_le_mul_left (2 ^ limb.width) hhigh
        rw [Nat.mul_succ] at this
        omega

namespace Piece

/-! ## Moving pieces -/

/-- Pieces and where they go: targets are wide enough, no two are the same, and no piece is read
after its limb was overwritten. -/
structure Movable (rs : RegisterFile) (moves : List (Piece × RegId)) : Prop where
  kept_le : ∀ move ∈ moves, move.1.kept ≤ rs.widthOf move.1.limb.id
  whole : ∀ move ∈ moves, move.1.limb.width = rs.widthOf move.1.limb.id
  source : ∀ move ∈ moves, rs.declares move.1.limb.id = true
  target : ∀ move ∈ moves, rs.declares move.2 = true
  room : ∀ move ∈ moves, move.1.kept ≤ rs.widthOf move.2
  size : ∀ move ∈ moves, rs.widthOf move.2 < Word.modulus
  nodup : (moves.map Prod.snd).Nodup
  ordered : moves.Pairwise fun move later => move.2 ≠ later.1.limb.id

variable {rs : RegisterFile} {s : State} {move : Piece × RegId} {moves : List (Piece × RegId)}

theorem Movable.tail (h : Movable rs (move :: moves)) : Movable rs moves where
  kept_le := fun m hm => h.kept_le m (List.mem_cons_of_mem _ hm)
  whole := fun m hm => h.whole m (List.mem_cons_of_mem _ hm)
  source := fun m hm => h.source m (List.mem_cons_of_mem _ hm)
  target := fun m hm => h.target m (List.mem_cons_of_mem _ hm)
  room := fun m hm => h.room m (List.mem_cons_of_mem _ hm)
  size := fun m hm => h.size m (List.mem_cons_of_mem _ hm)
  nodup := (List.nodup_cons.1 h.nodup).2
  ordered := (List.pairwise_cons.1 h.ordered).2

theorem Movable.mono {later : RegisterFile} (h : Movable rs moves) (hpre : rs <+: later) :
    Movable later moves where
  kept_le := fun m hm => by
    rw [RegisterFile.widthOf_mono hpre (h.source m hm)]
    exact h.kept_le m hm
  whole := fun m hm => by
    rw [RegisterFile.widthOf_mono hpre (h.source m hm)]
    exact h.whole m hm
  source := fun m hm => RegisterFile.declares_mono hpre (h.source m hm)
  target := fun m hm => RegisterFile.declares_mono hpre (h.target m hm)
  room := fun m hm => by
    rw [RegisterFile.widthOf_mono hpre (h.target m hm)]
    exact h.room m hm
  size := fun m hm => by
    rw [RegisterFile.widthOf_mono hpre (h.target m hm)]
    exact h.size m hm
  nodup := h.nodup
  ordered := h.ordered

theorem Movable.storable (h : Movable rs (move :: moves)) : rs.Storable [move.2] := by
  refine ⟨List.nodup_singleton _, fun id hid _ => ?_, ?_⟩
  · rw [List.mem_singleton.1 hid]
    exact h.target move List.mem_cons_self
  · simpa using h.size move List.mem_cons_self

/-- A piece that fits is copied. -/
theorem copyTo_does (h : Movable s.registers (move :: moves)) (hs : s.Fits)
    (hfit : s.load move.1.limb.id < 2 ^ move.1.kept) :
    ∃ s₁, (move.1.copyTo move.2).Does s (.skip 1) s₁ ∧
      (∀ known, s.Touches known [move.2] s₁) ∧ s₁.load move.2 = s.load move.1.limb.id := by
  have hroom := h.room move List.mem_cons_self
  have hlt : s.load move.1.limb.id < 2 ^ (s.registers.widths [move.2]).sum := by
    simpa using Nat.lt_of_lt_of_le hfit (Nat.pow_le_pow_right (by decide) hroom)
  have hvalue : ∀ {s₁ : State}, s.Assigned [move.2]
      (Digits.cut (s.registers.widths [move.2]) (s.load move.1.limb.id)) s₁ →
        s₁.load move.2 = s.load move.1.limb.id := by
    intro s₁ hassigned
    rw [← State.packed_singleton, hassigned.packed_eq hlt]
  unfold copyTo
  split
  · rename_i hwhole
    have hrun : (Microcode.assign [move.2] (.var move.1.limb.id)).Runnable s.registers := by
      refine ⟨h.storable, ?_⟩
      have hw := h.whole move List.mem_cons_self
      have hpow : 2 ^ s.registers.widthOf move.1.limb.id ≤ 2 ^ s.registers.widthOf move.2 :=
        Nat.pow_le_pow_right (by decide) (by omega)
      have hpos := Nat.two_pow_pos (s.registers.widthOf move.1.limb.id)
      simp [Microcode.polynomial?, Polynomial.maxValue, Polynomial.eval, Polynomial.var,
        Monomial.eval, RegisterFile.maxOf_eq]
      omega
    obtain ⟨s₁, hdoes, hassigned, htakes⟩ := Microcode.does_effect rfl hrun hs
    refine ⟨s₁, hdoes, fun known => hassigned.touches hs htakes, ?_⟩
    have heval : (Polynomial.var move.1.limb.id).eval s.load = s.load move.1.limb.id := by
      simp [Polynomial.eval, Polynomial.var, Monomial.eval]
    rw [Microcode.effect, Microcode.value, heval] at hassigned
    exact hvalue hassigned
  · have hrun : (Microcode.cast [move.2] move.1.limb.id move.1.kept).Runnable s.registers :=
      ⟨h.storable, by simpa using hroom⟩
    obtain ⟨s₁, hdoes, hassigned, htakes⟩ := Microcode.does_effect rfl hrun hs
    have hbits : ¬ move.1.kept < bitLength (s.load move.1.limb.id) :=
      Nat.not_lt.2 (bitLength_le_iff.2 hfit)
    simp only [Microcode.effect, hbits, if_false] at hdoes hassigned htakes
    exact ⟨s₁, hdoes, fun known => hassigned.touches hs htakes, hvalue hassigned⟩

/-- A piece that does not fit makes the routine fail. -/
theorem copyTo_fails (h : Movable s.registers (move :: moves)) (hs : s.Fits)
    (hfit : 2 ^ move.1.kept ≤ s.load move.1.limb.id) :
    (move.1.copyTo move.2).Does s .fail s := by
  have hload := hs.load_lt move.1.limb.id
  have hcast : move.1.kept ≠ move.1.limb.width := by
    rw [h.whole move List.mem_cons_self]
    intro heq
    rw [heq] at hfit
    omega
  have hbits : move.1.kept < bitLength (s.load move.1.limb.id) := by
    rw [← Nat.not_le, bitLength_le_iff]
    omega
  intro σ io m
  unfold copyTo
  rw [if_neg hcast]
  simp only [Microcode.execute, estate_get_bind, hbits, if_true]
  rfl

/-- The microcode that makes a move. -/
abbrev moved : Piece × RegId → Microcode := fun move => move.1.copyTo move.2

/-- What is read later is still there. -/
theorem Movable.load_eq {s₁ : State} (h : Movable s.registers (move :: moves))
    (htouch : ∀ known, s.Touches known [move.2] s₁) :
    ∀ m ∈ moves, s₁.load m.1.limb.id = s.load m.1.limb.id := by
  intro m hm
  refine (htouch s.registers).frame _ (h.source m (List.mem_cons_of_mem _ hm)) fun hin => ?_
  exact (List.pairwise_cons.1 h.ordered).1 m hm (List.mem_singleton.1 hin).symm

/-- Pieces that all fit are moved. -/
theorem moves_run (h : Movable s.registers moves) (hs : s.Fits)
    (hfit : ∀ m ∈ moves, s.load m.1.limb.id < 2 ^ m.1.kept) :
    ∃ s₁, Microcode.Runs (moves.map moved) s s₁ ∧
      (∀ known, s.Touches known (moves.map Prod.snd) s₁) ∧
      ∀ m ∈ moves, s₁.load m.2 = s.load m.1.limb.id := by
  induction moves generalizing s with
  | nil => exact ⟨s, .nil s, fun _ => .refl hs, by simp⟩
  | cons move moves ih =>
    obtain ⟨s₁, hdoes, htouch, hload⟩ := copyTo_does h hs (hfit move List.mem_cons_self)
    have hregs := (htouch s.registers).registers_eq
    have hkept := h.load_eq htouch
    obtain ⟨s₂, hrun, htouch₂, hloads⟩ := ih (s := s₁) (by rw [hregs]; exact h.tail)
      (htouch s.registers).fits (by
        intro m hm
        rw [hkept m hm]
        exact hfit m (List.mem_cons_of_mem _ hm))
    refine ⟨s₂, .cons hdoes hrun, ?_, ?_⟩
    · intro known
      exact (htouch known).trans (htouch₂ known) (List.prefix_refl _)
    · intro m hm
      rcases List.mem_cons.1 hm with rfl | hm
      · rw [← hload]
        exact (htouch₂ s.registers).frame _ (h.target m List.mem_cons_self)
          (List.nodup_cons.1 h.nodup).1
      · rw [hloads m hm, hkept m hm]

/-- A piece that does not fit makes the routine fail, once the pieces before it are moved. -/
theorem moves_fail (h : Movable s.registers moves) (hs : s.Fits)
    (hfit : ∃ m ∈ moves, 2 ^ m.1.kept ≤ s.load m.1.limb.id) :
    ∃ s₁, Fragment.Runs ((moves.map moved).map Fragment.plain) s (.leave .fail) s₁ := by
  induction moves generalizing s with
  | nil => simp at hfit
  | cons move moves ih =>
    rcases Nat.lt_or_ge (s.load move.1.limb.id) (2 ^ move.1.kept) with hlt | hge
    · obtain ⟨s₁, hdoes, htouch, -⟩ := copyTo_does h hs hlt
      have hregs := (htouch s.registers).registers_eq
      obtain ⟨m, hm, hm'⟩ := hfit
      obtain ⟨s₂, hrun⟩ :=
        ih (s := s₁) (by rw [hregs]; exact h.tail) (htouch s.registers).fits (by
        rcases List.mem_cons.1 hm with rfl | hm
        · omega
        · exact ⟨m, hm, by rw [h.load_eq htouch m hm]; exact hm'⟩)
      exact ⟨s₂, .next (fun _ => hdoes) hrun⟩
    · exact ⟨s, .leave rfl fun _ => copyTo_fails h hs hge⟩

/-- Target limbs are cleared. -/
theorem clear_runs {ids : List RegId} (hs : s.Fits)
    (hids : ∀ id ∈ ids, s.registers.declares id = true ∧
      s.registers.widthOf id < Word.modulus) :
    ∃ s₁, Microcode.Runs (ids.map fun id => .assign [id] .zero) s s₁ ∧
      (∀ known, s.Touches known ids s₁) ∧ ∀ id ∈ ids, s₁.load id = 0 := by
  induction ids generalizing s with
  | nil => exact ⟨s, .nil s, fun _ => .refl hs, by simp⟩
  | cons id ids ih =>
    obtain ⟨hdecl, hsize⟩ := hids id List.mem_cons_self
    have hstore : s.registers.Storable [id] := by
      refine ⟨List.nodup_singleton _, fun id' hid' _ => ?_, by simpa using hsize⟩
      rw [List.mem_singleton.1 hid']
      exact hdecl
    have hfit : Polynomial.zero.width s.registers ≤ (s.registers.widths [id]).sum :=
      Nat.zero_le _
    obtain ⟨s₁, hdoes, hpacked, htouch⟩ := LimbEquation.assign_runs hs hstore hfit
    have hregs := (htouch s.registers).registers_eq
    obtain ⟨s₂, hrun, htouch₂, hzero⟩ := ih (s := s₁) (htouch s.registers).fits (by
      rw [hregs]
      exact fun id' hid' => hids id' (List.mem_cons_of_mem _ hid'))
    refine ⟨s₂, .cons hdoes hrun, ?_, ?_⟩
    · intro known
      exact (htouch known).trans (htouch₂ known) (List.prefix_refl _)
    · intro id' hid'
      by_cases hin : id' ∈ ids
      · exact hzero id' hin
      · obtain rfl : id' = id := (List.mem_cons.1 hid').resolve_right hin
        rw [(htouch₂ s.registers).frame id' hdecl hin, ← State.packed_singleton, hpacked]
        rfl

/-! ## The pieces of a register -/

section Pieces

variable {limbs : List Limb} (width : Nat)

/-- The pieces hold what the register holds. -/
theorem sum_ofLimbs (hs : s.Fits) (hcont : Limb.Contiguous s.registers 0 limbs) :
    ((ofLimbs width limbs).map fun piece => 2 ^ piece.limb.offset * s.load piece.limb.id).sum =
      s.packed (Limb.ids limbs) := by
  have hsum := hcont.sum_load_wide hs
  rw [Nat.pow_zero, Nat.one_mul] at hsum
  rw [ofLimbs, List.map_map, ← hsum]
  rfl

/-- The value fits exactly if every piece does. -/
theorem packed_lt_iff (hs : s.Fits) (hcont : Limb.Contiguous s.registers 0 limbs) :
    s.packed (Limb.ids limbs) < 2 ^ width ↔
      ∀ piece ∈ ofLimbs width limbs, s.load piece.limb.id < 2 ^ piece.kept := by
  have hiff : s.packed (Limb.ids limbs) < 2 ^ (width - 0) ↔ _ := hcont.packed_lt_iff hs
  rw [Nat.sub_zero] at hiff
  rw [hiff]
  constructor
  · intro hall piece hpiece
    obtain ⟨limb, hlimb, rfl⟩ := List.mem_map.1 hpiece
    have hmem := (List.mem_filter.1 hlimb).1
    have hload := hs.load_lt limb.id
    rw [← (hcont.bounds hmem).2.2] at hload
    rcases Nat.le_total (width - limb.offset) limb.width with hle | hle
    · rw [Nat.min_eq_left hle]
      exact hall limb hmem
    · rw [Nat.min_eq_right hle]
      exact hload
  · intro hall limb hlimb
    by_cases hpos : 0 < limb.width
    · have hfit := hall ⟨limb, min (width - limb.offset) limb.width⟩
        (List.mem_map_of_mem (List.mem_filter.2 ⟨hlimb, by simpa using hpos⟩))
      exact Nat.lt_of_lt_of_le hfit (Nat.pow_le_pow_right (by decide) (Nat.min_le_left _ _))
    · have hload := hs.load_lt limb.id
      rw [← (hcont.bounds hlimb).2.2, Nat.eq_zero_of_not_pos hpos, Nat.pow_zero] at hload
      exact Nat.lt_of_lt_of_le hload (Nat.two_pow_pos _)

/-- Pieces of which some bits are kept, in the order of the limbs. -/
structure KeptOf (rs : RegisterFile) (limbs : List Limb) (pieces : List Piece) : Prop where
  limb_mem : ∀ piece ∈ pieces, piece.limb ∈ limbs
  kept_le : ∀ piece ∈ pieces, piece.kept ≤ piece.limb.width
  pos : ∀ piece ∈ pieces, 0 < piece.kept
  declared : ∀ piece ∈ pieces, rs.declares piece.limb.id = true
  width_eq : ∀ piece ∈ pieces, piece.limb.width = rs.widthOf piece.limb.id
  ordered : pieces.Pairwise fun piece later => piece.limb.offset < later.limb.offset

/-- The pieces fit if nothing of the dropped ones is set and the kept ones fit. -/
theorem forall_fit_iff {pieces : List Piece} :
    (∀ piece ∈ pieces, s.load piece.limb.id < 2 ^ piece.kept) ↔
      (∀ piece ∈ pieces.filter (fun piece => piece.kept = 0), s.load piece.limb.id = 0) ∧
        ∀ piece ∈ pieces.filter (fun piece => !decide (piece.kept = 0)),
          s.load piece.limb.id < 2 ^ piece.kept := by
  simp only [List.mem_filter, decide_eq_true_eq, Bool.not_eq_true', decide_eq_false_iff_not]
  constructor
  · intro hall
    refine ⟨fun piece ⟨hmem, hzero⟩ => ?_, fun piece ⟨hmem, _⟩ => hall piece hmem⟩
    have hlt := hall piece hmem
    rw [hzero, Nat.pow_zero] at hlt
    exact Nat.lt_one_iff.1 hlt
  · rintro ⟨hdropped, hkept⟩ piece hmem
    by_cases hzero : piece.kept = 0
    · rw [hdropped piece ⟨hmem, hzero⟩]
      exact Nat.two_pow_pos _
    · exact hkept piece ⟨hmem, hzero⟩

/-- If nothing of the dropped pieces is set, the kept ones hold the whole value. -/
theorem sum_kept (hs : s.Fits) (hcont : Limb.Contiguous s.registers 0 limbs)
    (hdropped : ∀ piece ∈ (ofLimbs width limbs).filter (fun piece => piece.kept = 0),
      s.load piece.limb.id = 0) :
    (((ofLimbs width limbs).filter fun piece => !decide (piece.kept = 0)).map fun piece =>
      2 ^ piece.limb.offset * s.load piece.limb.id).sum = s.packed (Limb.ids limbs) := by
  rw [← sum_ofLimbs width hs hcont]
  refine sum_map_filter _ _ _ fun piece hpiece hnot => ?_
  rw [hdropped piece (List.mem_filter.2 ⟨hpiece, by simpa using hnot⟩), Nat.mul_zero]

theorem keptOf_ofLimbs (hcont : Limb.Contiguous rs 0 limbs)
    (hdecl : ∀ id ∈ Limb.ids limbs, rs.declares id = true) :
    KeptOf rs limbs ((ofLimbs width limbs).filter fun piece => !decide (piece.kept = 0)) := by
  have hmem : ∀ piece ∈ ofLimbs width limbs, piece.limb ∈ limbs ∧
      piece.kept ≤ piece.limb.width := by
    intro piece hpiece
    obtain ⟨limb, hlimb, rfl⟩ := List.mem_map.1 hpiece
    exact ⟨(List.mem_filter.1 hlimb).1, Nat.min_le_right _ _⟩
  have hall : ∀ piece ∈ (ofLimbs width limbs).filter (fun piece => !decide (piece.kept = 0)),
      piece.limb ∈ limbs ∧ piece.kept ≤ piece.limb.width := fun piece hpiece =>
    hmem piece (List.mem_filter.1 hpiece).1
  refine ⟨fun p hp => (hall p hp).1, fun p hp => (hall p hp).2, ?_, ?_, ?_, ?_⟩
  · intro piece hpiece
    have := (List.mem_filter.1 hpiece).2
    simp only [Bool.not_eq_true', decide_eq_false_iff_not] at this
    omega
  · intro piece hpiece
    exact hdecl _ (List.mem_map_of_mem (hall piece hpiece).1)
  · intro piece hpiece
    exact (hcont.bounds (hall piece hpiece).1).2.2
  · refine List.Pairwise.filter _ (List.pairwise_map.2 ?_)
    exact hcont.pairwise_wide

end Pieces

/-! ## Copies -/

section Copies

variable {pool : Pool} {limbs targets : List Limb} {pieces : List Piece}
  {slots : List (Limb × Nat)} {source : RegId} {ids : List RegId}

theorem slot?_eq_some {piece : Piece} {slot : Limb × Nat} (h : piece.slot? targets = some slot) :
    slot ∈ targets.zipIdx ∧ slot.1.offset = piece.limb.offset ∧
      piece.kept ≤ slot.1.width := by
  have hmem := List.mem_of_find?_eq_some h
  have hprop := List.find?_some h
  simp only [Bool.and_eq_true, decide_eq_true_eq] at hprop
  exact ⟨hmem, hprop.1, hprop.2⟩

theorem mapM_slot?_eq_some (h : (pieces.mapM fun piece => piece.slot? targets) = some slots) :
    List.Forall₂ (fun piece slot => piece.slot? targets = some slot) pieces slots := by
  induction pieces generalizing slots with
  | nil =>
    cases h
    exact .nil
  | cons piece pieces ih =>
    rw [List.mapM_cons] at h
    simp only [Option.bind_eq_bind, Option.bind_eq_some_iff, Option.pure_def,
      Option.some.injEq] at h
    obtain ⟨slot, hslot, rest, hrest, rfl⟩ := h
    exact .cons hslot (ih hrest)

/-- The moves to the slots. -/
abbrev toSlots (pieces : List Piece) (slots : List (Limb × Nat)) : List (Piece × RegId) :=
  (pieces.zip slots).map fun (piece, slot) => (piece, slot.1.id)

theorem movable_toSlots {rs' : RegisterFile} (hs : pool.Splits rs')
    (hkept : KeptOf pool.registers limbs pieces) (hlimbs : pool.LaidOut [source] limbs)
    (htargets : pool.LaidOut ids targets) (hplaced : Limb.Placed pool.registers targets)
    (hslots : List.Forall₂ (fun piece slot => piece.slot? targets = some slot) pieces slots) :
    Movable pool.registers (toSlots pieces slots) := by
  have hzip : ∀ {move : Piece × RegId}, move ∈ toSlots pieces slots →
    ∃ slot, move.1 ∈ pieces ∧
      move.1.slot? targets = some slot ∧ move.2 = slot.1.id ∧ slot.1 ∈ targets := by
    intro move hmove
    obtain ⟨⟨piece, slot⟩, hmem, rfl⟩ := List.mem_map.1 hmove
    have hslot := (List.forall₂_iff_zip.1 hslots).2 hmem
    exact ⟨slot, (List.of_mem_zip hmem).1, hslot, rfl,
      List.fst_mem_of_mem_zipIdx (slot?_eq_some hslot).1⟩
  have hwidth : ∀ limb ∈ targets, limb.width = pool.registers.widthOf limb.id :=
    fun limb hlimb =>
    (htargets.contiguous.bounds hlimb).2.2
  -- the slots lie one above the other, as the pieces do
  have hoffsets : (toSlots pieces slots).Pairwise fun move later =>
      move.1.limb.offset < later.1.limb.offset := by
    have hfst : (toSlots pieces slots).map Prod.fst = pieces := by
      rw [List.map_map]
      exact List.map_fst_zip (Nat.le_of_eq hslots.length_eq)
    have hord := hkept.ordered
    rw [← hfst, List.pairwise_map] at hord
    exact hord
  refine ⟨?_, ?_, ?_, ?_, ?_, ?_, ?_, ?_⟩
  · intro move hmove
    obtain ⟨slot, hpiece, -⟩ := hzip hmove
    rw [← hkept.width_eq move.1 hpiece]
    exact hkept.kept_le move.1 hpiece
  · intro move hmove
    obtain ⟨slot, hpiece, -⟩ := hzip hmove
    exact hkept.width_eq move.1 hpiece
  · intro move hmove
    obtain ⟨slot, hpiece, -⟩ := hzip hmove
    exact hkept.declared move.1 hpiece
  · intro move hmove
    obtain ⟨slot, -, -, htarget, hmem⟩ := hzip hmove
    rw [htarget]
    exact hplaced.declared _ (List.mem_map_of_mem hmem)
  · intro move hmove
    obtain ⟨slot, -, hslot, htarget, hmem⟩ := hzip hmove
    rw [htarget, ← hwidth slot.1 hmem]
    exact (slot?_eq_some hslot).2.2
  · intro move hmove
    obtain ⟨slot, -, -, htarget, hmem⟩ := hzip hmove
    have hle := (htargets.contiguous.bounds hmem).2.1
    have := hplaced.size
    rw [htarget, ← hwidth slot.1 hmem]
    omega
  · rw [List.nodup_iff_pairwise_ne, List.pairwise_map]
    refine hoffsets.imp_of_mem fun {move later} hmove hlater hlt heq => ?_
    obtain ⟨slot, -, hslot, htarget, hmem⟩ := hzip hmove
    obtain ⟨slot', -, hslot', htarget', hmem'⟩ := hzip hlater
    have := htargets.contiguous.offset_unique htargets.contiguous rfl hplaced.nodup hmem hmem'
      (by rw [← htarget, ← htarget', heq])
    rw [(slot?_eq_some hslot).2.1, (slot?_eq_some hslot').2.1] at this
    omega
  · refine hoffsets.imp_of_mem fun {move later} hmove hlater hlt heq => ?_
    obtain ⟨slot, -, hslot, htarget, hmem⟩ := hzip hmove
    obtain ⟨-, hpiece, -⟩ := hzip hlater
    have := htargets.own_offset_le hlimbs hs hmem (hkept.limb_mem later.1 hpiece)
      (by rw [← htarget, heq])
    rw [(slot?_eq_some hslot).2.1] at this
    omega

/-- A target limb has one place. -/
theorem eq_of_mem_zipIdx {a b : Limb × Nat} (hnd : (Limb.ids targets).Nodup)
    (ha : a ∈ targets.zipIdx) (hb : b ∈ targets.zipIdx) (hid : a.1.id = b.1.id) : a = b := by
  have ha := List.mem_zipIdx_iff_getElem?.1 ha
  have hb := List.mem_zipIdx_iff_getElem?.1 hb
  have hget : ∀ {c : Limb × Nat}, targets[c.2]? = some c.1 →
      (Limb.ids targets)[c.2]? = some c.1.id := by
    intro c hc
    rw [List.getElem?_map, hc]
    rfl
  have hindex : a.2 = b.2 := by
    refine (List.getElem?_inj ?_ hnd).1 ?_
    · exact (List.getElem?_eq_some_iff.1 (hget ha)).1
    · rw [hget ha, hget hb, hid]
  rw [hindex, hb] at ha
  exact Prod.ext (Option.some.inj ha).symm hindex

/-- The target limbs that no piece goes to. -/
abbrev idle (slots : List (Limb × Nat)) (targets : List Limb) : List (Limb × Nat) :=
  targets.zipIdx.filter fun slot => !(slots.map Prod.snd).contains slot.2

theorem copies_eq : copies pieces slots targets = (toSlots pieces slots).map moved ++
    ((idle slots targets).map fun slot => slot.1.id).map fun id => .assign [id] .zero := by
  simp only [copies, toSlots, List.map_map]
  rfl

theorem slots_mem
    (hslots : List.Forall₂ (fun piece slot => piece.slot? targets = some slot) pieces slots) :
    ∀ slot ∈ slots, slot ∈ targets.zipIdx := by
  intro slot hin
  rw [← List.map_snd_zip (Nat.le_of_eq hslots.length_eq.symm)] at hin
  obtain ⟨pair, hpair, rfl⟩ := List.mem_map.1 hin
  exact (slot?_eq_some ((List.forall₂_iff_zip.1 hslots).2 hpair)).1

theorem map_snd_toSlots
    (hslots : List.Forall₂ (fun piece slot => piece.slot? targets = some slot) pieces slots) :
    (toSlots pieces slots).map Prod.snd = slots.map fun slot => slot.1.id := by
  conv_rhs => rw [← List.map_snd_zip (Nat.le_of_eq hslots.length_eq.symm), List.map_map]
  rw [List.map_map]
  rfl

/-- An idle limb is a target limb that no slot has. -/
theorem mem_idle (hnd : (Limb.ids targets).Nodup)
    (hmem : ∀ slot ∈ slots, slot ∈ targets.zipIdx) {id : RegId}
    (hid : id ∈ (idle slots targets).map fun slot => slot.1.id) :
    id ∈ Limb.ids targets ∧ id ∉ slots.map fun slot => slot.1.id := by
  obtain ⟨slot, hslot, rfl⟩ := List.mem_map.1 hid
  obtain ⟨hin, hnot⟩ := List.mem_filter.1 hslot
  refine ⟨List.mem_map_of_mem (List.fst_mem_of_mem_zipIdx hin), fun hslots' => ?_⟩
  obtain ⟨slot', hslot', heq⟩ := List.mem_map.1 hslots'
  obtain rfl := eq_of_mem_zipIdx hnd (hmem slot' hslot') hin heq
  rw [Bool.not_eq_true', ← Bool.not_eq_true, List.contains_iff_mem] at hnot
  exact hnot (List.mem_map_of_mem hslot')

/-- The slots and the idle limbs are all target limbs. -/
theorem sum_slots_idle (hmem : ∀ slot ∈ slots, slot ∈ targets.zipIdx) (hnd : slots.Nodup)
    (g : Limb → Nat) : (slots.map fun slot => g slot.1).sum +
      ((idle slots targets).map fun slot => g slot.1).sum = (targets.map g).sum := by
  have hzip : targets.zipIdx.Nodup := by
    refine List.Nodup.of_map Prod.snd ?_
    rw [List.zipIdx_map_snd]
    exact List.nodup_range' ..
  have hperm :
      slots.Perm (targets.zipIdx.filter fun slot => (slots.map Prod.snd).contains slot.2) := by
    refine (List.perm_ext_iff_of_nodup hnd (hzip.filter _)).2 fun slot => ?_
    simp only [List.mem_filter, List.contains_iff_mem, List.mem_map]
    constructor
    · intro hslot
      exact ⟨hmem slot hslot, slot, hslot, rfl⟩
    · rintro ⟨hin, slot', hslot', hindex⟩
      have hget := List.mem_zipIdx_iff_getElem?.1 hin
      have hget' := List.mem_zipIdx_iff_getElem?.1 (hmem slot' hslot')
      rw [hindex, hget] at hget'
      rw [Prod.ext (Option.some.inj hget') hindex.symm]
      exact hslot'
  have hsum : (targets.map g).sum = (targets.zipIdx.map fun slot => g slot.1).sum := by
    conv_lhs => rw [← List.zipIdx_map_fst 0 targets, List.map_map]
    rfl
  rw [(hperm.map _).sum_eq, hsum]
  have hsplit := List.sum_map_filter_add_sum_map_filter_not
    (fun slot : Limb × Nat => (slots.map Prod.snd).contains slot.2 = true) (fun slot => g slot.1)
    targets.zipIdx
  simpa [idle] using hsplit

/-- Pieces that fit are copied to their slots, and nothing else is left in the targets. -/
theorem copies_run (hmovable : Movable s.registers (toSlots pieces slots)) (hs : s.Fits)
    (hplaced : Limb.Placed s.registers targets)
    (hslots : List.Forall₂ (fun piece slot => piece.slot? targets = some slot) pieces slots)
    (hfit : ∀ piece ∈ pieces, s.load piece.limb.id < 2 ^ piece.kept) :
    ∃ s₁, Microcode.Runs (copies pieces slots targets) s s₁ ∧
      (∀ known, s.Touches known (Limb.ids targets) s₁) ∧ s₁.packed (Limb.ids targets) =
        (pieces.map fun piece => 2 ^ piece.limb.offset * s.load piece.limb.id).sum := by
  have hfst : (pieces.zip slots).map Prod.fst = pieces :=
    List.map_fst_zip (Nat.le_of_eq hslots.length_eq)
  have hsnd : (pieces.zip slots).map Prod.snd = slots :=
    List.map_snd_zip (Nat.le_of_eq hslots.length_eq.symm)
  have hslot : ∀ pair ∈ pieces.zip slots, pair.1.slot? targets = some pair.2 :=
    fun pair hpair =>
    (List.forall₂_iff_zip.1 hslots).2 hpair
  have hmem := slots_mem hslots
  have hids := map_snd_toSlots hslots
  have hidle : ∀ id ∈ (idle slots targets).map fun slot => slot.1.id,
      id ∈ Limb.ids targets ∧ id ∉ slots.map fun slot => slot.1.id :=
    fun id hid => mem_idle hplaced.nodup hmem hid
  obtain ⟨s₁, hrun, htouch, hloads⟩ := moves_run hmovable hs (by
    intro move hmove
    obtain ⟨pair, hpair, rfl⟩ := List.mem_map.1 hmove
    exact hfit pair.1 (List.of_mem_zip hpair).1)
  have hregs := (htouch s.registers).registers_eq
  have hsize : ∀ id ∈ Limb.ids targets, s.registers.widthOf id < Word.modulus := by
    intro id hid
    obtain ⟨limb, hlimb, rfl⟩ := List.mem_map.1 hid
    obtain ⟨-, hle, hw⟩ := hplaced.contiguous.bounds hlimb
    have := hplaced.size
    rw [← hw]
    omega
  obtain ⟨s₂, hclear, htouch₂, hzero⟩ := clear_runs (htouch s.registers).fits (by
    intro id hid
    rw [hregs]
    exact ⟨hplaced.declared id (hidle id hid).1, hsize id (hidle id hid).1⟩)
  rw [copies_eq]
  refine ⟨s₂, hrun.append hclear, ?_, ?_⟩
  · intro known
    refine ((htouch known).trans (htouch₂ known) (List.prefix_refl _)).narrow fun id hid _ => ?_
    rcases List.mem_append.1 hid with hid | hid
    · rw [hids] at hid
      obtain ⟨slot, hslot, rfl⟩ := List.mem_map.1 hid
      exact List.mem_map_of_mem (List.fst_mem_of_mem_zipIdx (hmem slot hslot))
    · exact (hidle id hid).1
  · have hregs₂ : s₂.registers = s.registers :=
      (htouch₂ s.registers).registers_eq.trans hregs
    have hcont : Limb.Contiguous s₂.registers 0 targets := by
      rw [hregs₂]
      exact hplaced.contiguous
    have hsum := hcont.sum_load
    rw [Nat.pow_zero, Nat.one_mul] at hsum
    have hnd : slots.Nodup := by
      refine List.Nodup.of_map (fun slot : Limb × Nat => slot.1.id) ?_
      rw [← hids]
      exact hmovable.nodup
    -- the idle limbs are zero, and each slot holds its piece
    have hidle₀ :
        ((idle slots targets).map fun slot => 2 ^ slot.1.offset * s₂.load slot.1.id).sum =
          0 := by
      refine List.sum_eq_zero fun n hn => ?_
      obtain ⟨slot, hslot, rfl⟩ := List.mem_map.1 hn
      rw [hzero _ (List.mem_map_of_mem hslot), Nat.mul_zero]
    rw [← hsum, ← sum_slots_idle hmem hnd, hidle₀, Nat.add_zero, ← hsnd, List.map_map]
    conv_rhs => rw [← hfst, List.map_map]
    congr 1
    refine List.map_congr_left fun pair hpair => ?_
    have hmove : (pair.1, pair.2.1.id) ∈ toSlots pieces slots := List.mem_map_of_mem hpair
    have hin : pair.2.1.id ∈ slots.map fun slot => slot.1.id :=
      List.mem_map_of_mem (List.of_mem_zip hpair).2
    have hkept : s₂.load pair.2.1.id = s₁.load pair.2.1.id :=
      (htouch₂ s.registers).frame _ (hmovable.target _ hmove) fun hid => (hidle _ hid).2 hin
    simp only [Function.comp_apply]
    rw [hkept, hloads _ hmove, (slot?_eq_some (hslot pair hpair)).2.1]

end Copies

/-! ## Gathering -/

section Gather

variable {early later : Pool} {limbs targets : List Limb} {pieces : List Piece}
  {casts codes : List Microcode} {terms : List Term} {source : RegId} {ids : List RegId}
  {site : Site}

theorem KeptOf.tail {piece : Piece} (h : KeptOf rs limbs (piece :: pieces)) :
    KeptOf rs limbs pieces where
  limb_mem := fun p hp => h.limb_mem p (List.mem_cons_of_mem _ hp)
  kept_le := fun p hp => h.kept_le p (List.mem_cons_of_mem _ hp)
  pos := fun p hp => h.pos p (List.mem_cons_of_mem _ hp)
  declared := fun p hp => h.declared p (List.mem_cons_of_mem _ hp)
  width_eq := fun p hp => h.width_eq p (List.mem_cons_of_mem _ hp)
  ordered := (List.pairwise_cons.1 h.ordered).2

theorem KeptOf.mono {later : RegisterFile} (h : KeptOf rs limbs pieces) (hpre : rs <+: later) :
    KeptOf later limbs pieces where
  limb_mem := h.limb_mem
  kept_le := h.kept_le
  pos := h.pos
  declared := fun p hp => RegisterFile.declares_mono hpre (h.declared p hp)
  width_eq := fun p hp => by
    rw [RegisterFile.widthOf_mono hpre (h.declared p hp)]
    exact h.width_eq p hp
  ordered := h.ordered

/-- The term of a piece: the limb itself if it is kept whole, else a register it is cast to. -/
def Gathered (moves : List (Piece × RegId)) (piece : Piece) (term : Term) : Prop :=
  ∃ id, term = Term.ofLimb id piece.limb.offset ∧
    ((piece.kept = piece.limb.width ∧ id = piece.limb.id) ∨ (piece, id) ∈ moves)

/-- A piece that is cut is cast to a register of its own, and a whole one is its limb. -/
theorem gather_cons_ok {piece : Piece}
    (h : gather (piece :: pieces) early = .ok (casts, terms) later) :
    (piece.kept < piece.limb.width ∧ ∃ whole mid casts' terms',
      Pool.allocate "tmp" piece.kept early = .ok whole mid ∧
      gather pieces mid = .ok (casts', terms') later ∧
      casts = .cast [whole] piece.limb.id piece.kept :: casts' ∧
      terms = Term.ofLimb whole piece.limb.offset :: terms') ∨
    (piece.limb.width ≤ piece.kept ∧ ∃ terms',
      gather pieces early = .ok (casts, terms') later ∧
        terms = Term.ofLimb piece.limb.id piece.limb.offset :: terms') := by
  unfold gather at h
  by_cases hcut : piece.kept < piece.limb.width
  · simp only [hcut, if_true] at h
    obtain ⟨whole, mid, halloc, h⟩ := estate_bind_ok.1 h
    obtain ⟨⟨casts', terms'⟩, later', hgather, h⟩ := estate_bind_ok.1 h
    obtain ⟨heq, rfl⟩ := estate_pure_ok.1 h
    cases heq
    exact .inl ⟨hcut, whole, mid, casts', terms', halloc, hgather, rfl, rfl⟩
  · simp only [hcut, if_false] at h
    obtain ⟨⟨casts', terms'⟩, later', hgather, h⟩ := estate_bind_ok.1 h
    obtain ⟨heq, rfl⟩ := estate_pure_ok.1 h
    cases heq
    exact .inr ⟨Nat.not_lt.1 hcut, terms', hgather, rfl⟩

/-- One more piece is moved to a register that was not there before. -/
theorem Movable.cons {piece : Piece} {whole : RegId} {mid : Pool}
    (hmovable : Movable later.registers moves)
    (hkept : KeptOf early.registers limbs (piece :: pieces))
    (halloc : early.Allocated piece.kept whole mid) (hgrows : mid.Extends later)
    (hsize : piece.kept < Word.modulus)
    (hmoves : ∀ move ∈ moves, move.1 ∈ pieces ∧ mid.registers.declares move.2 = false) :
    Movable later.registers ((piece, whole) :: moves) := by
  have hmem : piece ∈ piece :: pieces := List.mem_cons_self
  have hpre := halloc.grows.registers
  have hused : whole.isUsed = true := halloc.used_iff.2 (hkept.pos piece hmem)
  have hwidth : later.registers.widthOf whole = piece.kept := by
    rw [halloc.known.widthOf_eq hgrows.registers, halloc.widthOf_eq]
  have hsource : later.registers.widthOf piece.limb.id = piece.limb.width := by
    rw [RegisterFile.widthOf_mono (hpre.trans hgrows.registers) (hkept.declared piece hmem),
      hkept.width_eq piece hmem]
  refine ⟨?_, ?_, ?_, ?_, ?_, ?_, ?_, ?_⟩
  · refine List.forall_mem_cons.2 ⟨?_, hmovable.kept_le⟩
    rw [hsource]
    exact hkept.kept_le piece hmem
  · exact List.forall_mem_cons.2 ⟨hsource.symm, hmovable.whole⟩
  · refine List.forall_mem_cons.2 ⟨?_, hmovable.source⟩
    exact RegisterFile.declares_mono (hpre.trans hgrows.registers) (hkept.declared piece hmem)
  · refine List.forall_mem_cons.2 ⟨?_, hmovable.target⟩
    exact halloc.known.mono hgrows.registers hused
  · exact List.forall_mem_cons.2 ⟨Nat.le_of_eq hwidth.symm, hmovable.room⟩
  · refine List.forall_mem_cons.2 ⟨?_, hmovable.size⟩
    rw [hwidth]
    exact hsize
  · rw [List.map_cons, List.nodup_cons]
    refine ⟨fun hin => ?_, hmovable.nodup⟩
    obtain ⟨move, hmove, rfl⟩ := List.mem_map.1 hin
    have hfresh := (hmoves move hmove).2
    rw [halloc.known hused] at hfresh
    cases hfresh
  · refine List.pairwise_cons.2 ⟨fun move hmove heq => ?_, hmovable.ordered⟩
    have hdecl := hkept.declared move.1 (List.mem_cons_of_mem _ (hmoves move hmove).1)
    rw [← heq, halloc.fresh] at hdecl
    cases hdecl

theorem gather_ok (h : gather pieces early = .ok (casts, terms) later)
    (hkept : KeptOf early.registers limbs pieces)
    (hsize : ∀ piece ∈ pieces, piece.limb.width < Word.modulus) :
    ∃ moves, casts = moves.map moved ∧ early.Extends later ∧ Movable later.registers moves ∧
      (∀ move ∈ moves, move.1 ∈ pieces ∧ early.registers.declares move.2 = false) ∧
      List.Forall₂ (Gathered moves) pieces terms := by
  induction pieces generalizing early casts terms with
  | nil =>
    obtain ⟨heq, rfl⟩ := estate_pure_ok.1 h
    cases heq
    exact ⟨[], rfl, .refl early, ⟨by simp, by simp, by simp, by simp, by simp, by simp,
      .nil, .nil⟩, by simp, .nil⟩
  | cons piece pieces ih =>
    have hmem : piece ∈ piece :: pieces := List.mem_cons_self
    have hsize' : ∀ p ∈ pieces, p.limb.width < Word.modulus := fun p hp =>
      hsize p (List.mem_cons_of_mem _ hp)
    rcases gather_cons_ok h with ⟨hcut, whole, mid, casts', terms', halloc, hgather, rfl, rfl⟩ |
      ⟨hwhole, terms', hgather, rfl⟩
    · have halloc := Pool.allocate_ok halloc
      have hpre := halloc.grows.registers
      obtain ⟨moves, rfl, hgrows, hmovable, hmoves, hterms⟩ :=
        ih hgather (hkept.tail.mono hpre) hsize'
      refine ⟨(piece, whole) :: moves, ?_, halloc.grows.trans hgrows, ?_, ?_, ?_⟩
      · rw [List.map_cons, moved, copyTo, if_neg (Nat.ne_of_lt hcut)]
      · exact hmovable.cons hkept halloc hgrows (Nat.lt_trans hcut (hsize piece hmem)) hmoves
      · refine List.forall_mem_cons.2 ⟨⟨hmem, halloc.fresh⟩, fun move hmove => ?_⟩
        obtain ⟨hin, hfresh⟩ := hmoves move hmove
        exact ⟨List.mem_cons_of_mem _ hin, RegisterFile.not_declares_mono hpre hfresh⟩
      · refine .cons ⟨whole, rfl, .inr List.mem_cons_self⟩ (hterms.imp fun p term hterm => ?_)
        obtain ⟨id, hid, hcase⟩ := hterm
        exact ⟨id, hid, hcase.imp_right (List.mem_cons_of_mem _)⟩
    · obtain ⟨moves, hcasts, hgrows, hmovable, hmoves, hterms⟩ := ih hgather hkept.tail hsize'
      refine ⟨moves, hcasts, hgrows, hmovable, fun move hmove => ?_, .cons ?_ hterms⟩
      · obtain ⟨hin, hfresh⟩ := hmoves move hmove
        exact ⟨List.mem_cons_of_mem _ hin, hfresh⟩
      · have hle := hkept.kept_le piece hmem
        exact ⟨piece.limb.id, rfl, .inl ⟨by omega, rfl⟩⟩

/-- What the gathered terms add up to once the casts have run. -/
theorem sum_gathered {s₁ : State} (hterms : List.Forall₂ (Gathered moves) pieces terms)
    (hwhole : ∀ piece ∈ pieces, s₁.load piece.limb.id = s.load piece.limb.id)
    (hmoved : ∀ move ∈ moves, s₁.load move.2 = s.load move.1.limb.id) :
    (terms.map (Term.value s₁.load)).sum =
      (pieces.map fun piece => 2 ^ piece.limb.offset * s.load piece.limb.id).sum := by
  induction hterms with
  | nil => rfl
  | @cons piece term pieces terms hterm _ ih =>
    rw [List.map_cons, List.sum_cons, List.map_cons, List.sum_cons,
      ih fun p hp => hwhole p (List.mem_cons_of_mem _ hp)]
    obtain ⟨id, rfl, hid⟩ := hterm
    have hload : s₁.load id = s.load piece.limb.id := by
      rcases hid with ⟨-, rfl⟩ | hmove
      · exact hwhole piece List.mem_cons_self
      · exact hmoved (piece, id) hmove
    simp [Term.value, Term.ofLimb, Monomial.eval, hload]

/-- Pieces that are not whole are among the moves. -/
theorem exists_move (hterms : List.Forall₂ (Gathered moves) pieces terms) {piece : Piece}
    (hpiece : piece ∈ pieces) (hcut : piece.kept ≠ piece.limb.width) :
    ∃ id, (piece, id) ∈ moves := by
  induction hterms with
  | nil => cases hpiece
  | cons hterm _ ih =>
    rcases List.mem_cons.1 hpiece with rfl | hpiece
    · obtain ⟨id, -, ⟨heq, -⟩ | hmove⟩ := hterm
      · exact absurd heq hcut
      · exact ⟨id, hmove⟩
    · exact ih hpiece

/-- A gathered term reads a piece that is kept whole or what one was cast to. -/
theorem gathered_cases (hterms : List.Forall₂ (Gathered moves) pieces terms) :
    ∀ term ∈ terms, ∀ id ∈ term.monomial.vars, ∃ piece ∈ pieces,
      (piece.kept = piece.limb.width ∧ id = piece.limb.id) ∨ (piece, id) ∈ moves := by
  induction hterms with
  | nil => simp
  | @cons piece term pieces terms hterm _ ih =>
    intro term' hterm' id hid
    rcases List.mem_cons.1 hterm' with rfl | hterm'
    · obtain ⟨id', rfl, hid'⟩ := hterm
      rw [List.mem_singleton.1 hid]
      exact ⟨piece, List.mem_cons_self, hid'⟩
    · obtain ⟨piece', hpiece', hcase⟩ := ih term' hterm' id hid
      exact ⟨piece', List.mem_cons_of_mem _ hpiece', hcase⟩

theorem knows_gathered {known : RegisterFile}
    (hterms : List.Forall₂ (Gathered moves) pieces terms)
    (hwhole : ∀ piece ∈ pieces, known.declares piece.limb.id = true)
    (hmoved : ∀ move ∈ moves, known.declares move.2 = true) :
    ∀ term ∈ terms, ∀ id ∈ term.monomial.vars, known.Knows id := by
  intro term hterm id hid
  obtain ⟨piece, hpiece, ⟨-, rfl⟩ | hmove⟩ := gathered_cases hterms term hterm id hid
  · exact .of_declares (hwhole piece hpiece)
  · exact .of_declares (hmoved _ hmove)

end Gather

section Move

variable {early later : Pool} {limbs targets : List Limb} {pieces : List Piece}
  {codes : List Microcode} {source : RegId} {ids : List RegId} {site : Site} {rs' : RegisterFile}

/-- Pieces are copied where each has a slot of its own, and gathered into a sum elsewhere. -/
theorem move_ok (h : Piece.move site pieces targets early = .ok codes later) :
    (∃ slots, pieces.mapM (fun piece => piece.slot? targets) = some slots ∧
      codes = copies pieces slots targets ∧ early = later) ∨
    ∃ casts terms mid distributed, gather pieces early = .ok (casts, terms) mid ∧
      distribute site terms targets mid = .ok distributed later ∧
        codes = casts ++ distributed := by
  unfold Piece.move at h
  cases hslots : pieces.mapM fun piece => piece.slot? targets with
  | some slots =>
    simp only [hslots] at h
    obtain ⟨rfl, rfl⟩ := estate_pure_ok.1 h
    exact .inl ⟨slots, rfl, rfl, rfl⟩
  | none =>
    simp only [hslots] at h
    obtain ⟨⟨casts, terms⟩, mid, hgather, h⟩ := estate_bind_ok.1 h
    obtain ⟨distributed, later', hdist, h⟩ := estate_bind_ok.1 h
    obtain ⟨rfl, rfl⟩ := estate_pure_ok.1 h
    exact .inr ⟨casts, terms, mid, distributed, hgather, hdist, rfl⟩

/-- Moving kept pieces leaves what they hold in the targets, or fails if one does not fit. -/
theorem move_runs (h : Piece.move site pieces targets early = .ok codes later)
    (hs : early.Splits rs') (hkept : KeptOf early.registers limbs pieces)
    (hlimbs : early.LaidOut [source] limbs)
    (hsize : ∀ piece ∈ pieces, piece.limb.width < Word.modulus)
    (htargets : early.LaidOut ids targets) (hplaced : Limb.Placed early.registers targets) :
    early.Extends later ∧ ∀ {s : State}, later.registers <+: s.registers → s.Fits →
      (∀ code ∈ codes, code.Narrow s.registers) →
      ((∀ piece ∈ pieces, s.load piece.limb.id < 2 ^ piece.kept) →
        (targets = [] →
          (pieces.map fun piece => 2 ^ piece.limb.offset * s.load piece.limb.id).sum = 0) →
        ∃ s₁, Microcode.Runs codes s s₁ ∧
          s.Touches early.registers (Limb.ids targets) s₁ ∧ s₁.packed (Limb.ids targets) =
            (pieces.map fun piece => 2 ^ piece.limb.offset * s.load piece.limb.id).sum) ∧
      ((∃ piece ∈ pieces, 2 ^ piece.kept ≤ s.load piece.limb.id) →
        ∃ s₁, Fragment.Runs (codes.map Fragment.plain) s (.leave .fail) s₁) := by
  rcases move_ok h with ⟨slots, hslots, rfl, rfl⟩ |
    ⟨casts, terms, mid, distributed, hgather, hdist, rfl⟩
  · have hslots := mapM_slot?_eq_some hslots
    have hmovable := movable_toSlots hs hkept hlimbs htargets hplaced hslots
    refine ⟨.refl early, ?_⟩
    intro s hpre hfits _
    have hmovable := hmovable.mono hpre
    constructor
    · intro hfit _
      obtain ⟨s₁, hrun, htouch, hpacked⟩ :=
        copies_run hmovable hfits (hplaced.mono hpre) hslots hfit
      exact ⟨s₁, hrun, htouch _, hpacked⟩
    · rintro ⟨piece, hpiece, hbig⟩
      have hmem : piece ∈ (toSlots pieces slots).map Prod.fst := by
        rw [List.map_map]
        exact (List.map_fst_zip (Nat.le_of_eq hslots.length_eq)).symm ▸ hpiece
      obtain ⟨move, hmove, rfl⟩ := List.mem_map.1 hmem
      obtain ⟨s₁, hrun⟩ := moves_fail hmovable hfits ⟨move, hmove, hbig⟩
      rw [copies_eq, List.map_append]
      exact ⟨s₁, hrun.append (by simp)⟩
  · obtain ⟨moves, rfl, hgrows, hmovable, hmoves, hterms⟩ := gather_ok hgather hkept hsize
    have hknown := knows_gathered hterms
      (fun p hp => RegisterFile.declares_mono hgrows.registers (hkept.declared p hp))
      hmovable.target
    obtain ⟨hgrows', hruns⟩ := distribute_runs hdist (hplaced.mono hgrows.registers) hknown
    refine ⟨hgrows.trans hgrows', ?_⟩
    intro s hpre hfits hnarrow
    have hmovable := hmovable.mono (hgrows'.registers.trans hpre)
    constructor
    · intro hfit hnil
      obtain ⟨s₁, hrun, htouch, hloads⟩ := moves_run hmovable hfits fun move hmove =>
        hfit move.1 (hmoves move hmove).1
      -- the casts write registers that were not there before
      have htouch₀ : s.Touches early.registers [] s₁ := by
        refine (htouch early.registers).narrow fun id hid hdecl => ?_
        obtain ⟨move, hmove, rfl⟩ := List.mem_map.1 hid
        rw [(hmoves move hmove).2] at hdecl
        cases hdecl
      have hsum := sum_gathered (s := s) hterms
        (fun p hp => htouch₀.frame _ (hkept.declared p hp) List.not_mem_nil) hloads
      obtain ⟨s₂, hrun', htouch', hpacked⟩ := hruns (s := s₁)
        (by rw [htouch₀.registers_eq]; exact hpre) htouch₀.fits
        (by rw [htouch₀.registers_eq]; exact fun code hc =>
          hnarrow code (List.mem_append_right _ hc))
        (by rw [hsum]; exact hnil)
      exact ⟨s₂, hrun.append hrun', htouch₀.trans htouch' hgrows.registers,
        hpacked.trans hsum⟩
    · rintro ⟨piece, hpiece, hbig⟩
      have hcut : piece.kept ≠ piece.limb.width := by
        intro heq
        have hload := hfits.load_lt piece.limb.id
        rw [RegisterFile.widthOf_mono ((hgrows.trans hgrows').registers.trans hpre)
          (hkept.declared piece hpiece), ← hkept.width_eq piece hpiece] at hload
        rw [heq] at hbig
        omega
      obtain ⟨id, hmove⟩ := exists_move hterms hpiece hcut
      obtain ⟨s₁, hrun⟩ := moves_fail hmovable hfits ⟨_, hmove, hbig⟩
      rw [List.map_append]
      exact ⟨s₁, hrun.append (by simp)⟩

end Move

end Piece

section Cast

variable {site : Site} {targets : List RegId} {source : RegId} {width : Nat} {early later : Pool}
  {fragments : List Fragment}

theorem splitCast_ok (h : splitCast site targets source width early = .ok fragments later) :
    ∃ limbs layout codes, early.layout [source] = .ok limbs ∧
      early.layout targets = .ok layout ∧
        Piece.move site ((Piece.ofLimbs width limbs).filter fun piece => !decide (piece.kept = 0))
        layout early = .ok codes later ∧
      fragments = ((Piece.ofLimbs width limbs).filter fun piece => piece.kept = 0).map
        (fun piece => Fragment.compareConst piece.limb.id 0 .trailer) ++
          codes.map Fragment.plain := by
  unfold splitCast at h
  obtain ⟨limbs, mid, hask, h⟩ := estate_bind_ok.1 h
  obtain ⟨hlayout, rfl⟩ := Pool.asking_ok.1 hask
  obtain ⟨layout, mid, hask, h⟩ := estate_bind_ok.1 h
  obtain ⟨hlayout', rfl⟩ := Pool.asking_ok.1 hask
  simp only [List.partition_eq_filter_filter] at h
  obtain ⟨codes, later', hmove, h⟩ := estate_bind_ok.1 h
  obtain ⟨rfl, rfl⟩ := estate_pure_ok.1 h
  exact ⟨limbs, layout, codes, hlayout, hlayout', hmove, rfl⟩

/-- The guards of a cast fall through if nothing of the dropped pieces is set. -/
theorem Piece.guards_run (s : State) (pieces : List Piece) :
    Fragment.Runs (pieces.map fun piece => Fragment.compareConst piece.limb.id 0 .trailer) s
      (if ∀ piece ∈ pieces, s.load piece.limb.id = 0 then .fall else .branch .trailer) s := by
  have hruns := Fragment.runs_comparisons pieces
    (fun piece => Fragment.compareConst piece.limb.id 0 .trailer)
    (fun piece => s.load piece.limb.id == 0) fun piece _ =>
      Fragment.compares_const s piece.limb.id 0 .trailer
  have hall : pieces.all (fun piece => s.load piece.limb.id == 0) = true ↔
      ∀ piece ∈ pieces, s.load piece.limb.id = 0 := by
    simp only [List.all_eq_true, beq_iff_eq]
  rw [if_congr hall rfl rfl] at hruns
  exact hruns

/-- Splitting a cast stores the source across the limbs of the targets, or fails, just as the cast
does. -/
theorem splitCast_runs {rs : RegisterFile}
    (h : splitCast site targets source width early = .ok fragments later)
    (hs : early.Splits rs) (hsize : ∀ id, rs.widthOf id < Word.modulus) (ht : rs.Storable targets)
    (hwidth : width ≤ (rs.widths targets).sum) :
    early.Extends later ∧ ∀ {pool : Pool} {s s' : State}, later.Extends pool →
      pool.Represents s s' → s.registers = rs →
      (∀ fragment ∈ fragments, fragment.code.Narrow pool.registers) →
      (s.load source < 2 ^ width → ∃ limbIds s₁', pool.flatten targets = .ok limbIds ∧
        Fragment.Runs fragments s' .fall s₁' ∧ s'.Touches early.registers limbIds s₁' ∧
        s₁'.packed limbIds = s.load source) ∧
      (2 ^ width ≤ s.load source → ∃ exit s₁', Fragment.Runs fragments s' exit s₁' ∧
        (exit = .branch .trailer ∨ exit = .leave .fail)) := by
  obtain ⟨limbs, layout, codes, hlayout, hlayout', hmove, rfl⟩ := splitCast_ok h
  have hlimbs := hs.laidOut (by simpa using hsize source) hlayout
  have htargets := hs.laidOut ht.size hlayout'
  have hplaced := htargets.placed hs ht.nodup ht.size
  have hkept := Piece.keptOf_ofLimbs width hlimbs.contiguous (hlimbs.declares hs)
  obtain ⟨hgrows, hruns⟩ := Piece.move_runs hmove hs hkept hlimbs
    (fun piece hpiece => hlimbs.width_lt hs (hsize source) (hkept.limb_mem piece hpiece)) htargets
    hplaced
  refine ⟨hgrows, ?_⟩
  intro pool s s' hext hrep hrs hnarrow
  have hregs := hrep.registers_eq
  have hlaid := hlimbs.mono hs (hgrows.trans hext)
  have hcont : Limb.Contiguous s'.registers 0 limbs := by
    rw [hregs]
    exact hlaid.contiguous
  have hvalue : s'.packed (Limb.ids limbs) = s.load source := by
    rw [hrep.packed_flatten hlaid.flatten_eq, State.packed_singleton]
  have hfit := Piece.packed_lt_iff width hrep.limbs_fit hcont
  rw [hvalue, Piece.forall_fit_iff] at hfit
  obtain ⟨hfall, hfail⟩ :=
    hruns (s := s') (by rw [hregs]; exact hext.registers) hrep.limbs_fit (by
    intro code hcode
    rw [hregs]
    exact hnarrow _ (List.mem_append_right _ (List.mem_map_of_mem hcode)))
  have hguards := Piece.guards_run s'
    ((Piece.ofLimbs width limbs).filter fun piece => piece.kept = 0)
  constructor
  · intro hlt
    obtain ⟨hdropped, hkeeps⟩ := hfit.1 hlt
    rw [if_pos hdropped] at hguards
    have hsum := Piece.sum_kept width hrep.limbs_fit hcont hdropped
    rw [hvalue] at hsum
    -- a cast without target limbs keeps no bits at all
    have hnil : layout = [] → s.load source = 0 := by
      rintro rfl
      have hzero := htargets.sum_width hs
      rw [List.map_nil, List.sum_nil] at hzero
      rw [← hzero] at hwidth
      rw [Nat.le_zero.1 hwidth, Nat.pow_zero] at hlt
      exact Nat.lt_one_iff.1 hlt
    obtain ⟨s₁', hrun, htouch, hpacked⟩ := hfall hkeeps fun hempty => hsum.trans (hnil hempty)
    refine ⟨Limb.ids layout, s₁', (htargets.mono hs (hgrows.trans hext)).flatten_eq, ?_, htouch,
      hpacked.trans hsum⟩
    exact hguards.append_fall (Fragment.runs_plain hrun)
  · intro hle
    by_cases hdropped : ∀ piece ∈ (Piece.ofLimbs width limbs).filter fun piece =>
      piece.kept = 0,
        s'.load piece.limb.id = 0
    · rw [if_pos hdropped] at hguards
      have hbig : ∃ piece ∈ (Piece.ofLimbs width limbs).filter fun piece =>
        !decide (piece.kept = 0),
          2 ^ piece.kept ≤ s'.load piece.limb.id := by
        by_contra hnone
        refine absurd (hfit.2 ⟨hdropped, fun piece hpiece => ?_⟩) (Nat.not_lt.2 hle)
        exact Nat.not_le.1 fun hge => hnone ⟨piece, hpiece, hge⟩
      obtain ⟨s₁', hrun⟩ := hfail hbig
      exact ⟨_, s₁', hguards.append_fall hrun, .inr rfl⟩
    · rw [if_neg hdropped] at hguards
      exact ⟨_, s', hguards.append (by simp), .inl rfl⟩

end Cast

end LimbMachine
