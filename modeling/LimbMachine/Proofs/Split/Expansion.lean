import LimbMachine.Proofs.Split.Borrows
import LimbMachine.Proofs.Split.Comparison
import LimbMachine.Proofs.Split.GuardedCopy
import LimbMachine.Proofs.Split.Polynomials
import LimbMachine.Proofs.Split.Renaming
import LimbMachine.Split.Expansion

/-!
# What the fragments of a microcode do

The fragments that a microcode expands into do what the microcode does: from a state that represents
another they get out where the microcode sends control (`Step.Matches`) in a state that represents
the state after it (`Microcode.expand_simulates`). A microcode that fails may leave the limbs in any
state, for nothing is read after a failure.

`Microcode.LowersTo` lists the ways in which a microcode is lowered, and `Microcode.lower_ok` says
that there are no others; what holds of all fragments is shown by one case for each of them.
-/

namespace LimbMachine

/-- Where control goes after a microcode at `offset`, and how it gets out of its fragments. -/
inductive Step.Matches (offset : Nat) : Step → Exit → Prop
  | next : Matches offset (.skip 1) .fall
  | branch (distance : Nat) : Matches offset (.skip (Word.add 1 distance))
    (.branch (.offset (Microcode.landing offset distance)))
  | leave {step : Step} (leaves : step.leaves = true) : Matches offset step (.leave step)
  /-- A guard that does not hold goes to the failure at the end of the instruction. -/
  | guard : Matches offset .fail (.branch .trailer)

theorem Step.matches_compare (offset left right distance : Nat) :
    (Step.compare left right distance).Matches offset
      (if left = right then .fall else .branch (.offset (Microcode.landing offset distance))) := by
  unfold Step.compare
  by_cases h : left = right
  · simp only [h, ne_eq, not_true_eq_false, if_false, if_true]
    exact .next
  · simp only [h, ne_eq, not_false_eq_true, if_false, if_true]
    exact .branch distance

/-- In the states `s` and `s'`, the fragments do what the microcode at `offset` does. -/
def Fragment.Simulate (pool : Pool) (code : Microcode) (offset : Nat) (fragments : List Fragment)
    (s s' : State) : Prop :=
  ∃ step s₁ exit s₁', code.Does s step s₁ ∧ Fragment.Runs fragments s' exit s₁' ∧
    step.Matches offset exit ∧ (step ≠ .fail → pool.Represents s₁ s₁')

namespace Pool

variable {pool early later : Pool} {rs : RegisterFile} {code : Microcode} {s s' s₁ : State}
  {id : RegId} {offset : Nat}

/-! ## Single limbs -/

/-- Every register that a microcode reads or writes has a single limb. -/
def Single (pool : Pool) (code : Microcode) : Prop :=
  ∀ id ∈ code.operands ++ code.targets, id.isUsed = true →
    ∃ limb, pool.limbs? id = some [limb]

theorem isSingle_ok {b : Bool} (h : pool.isSingle code = .ok b) :
    (∀ id ∈ code.operands ++ code.targets, id.isUsed = true →
      ∃ limbs, pool.limbs? id = some limbs) ∧ (b = true ↔ pool.Single code) := by
  unfold isSingle at h
  obtain ⟨groups, hgroups, h⟩ := except_bind_ok.1 h
  cases h
  rw [except_mapM_ok] at hgroups
  have hmem : ∀ id ∈ code.operands ++ code.targets, id.isUsed = true →
      id ∈ code.reads ++ code.writes := by
    intro id hid hu
    rw [Microcode.reads, Microcode.writes, ← List.filter_append]
    exact List.mem_filter.2 ⟨hid, hu⟩
  have hgroup : ∀ id ∈ code.reads ++ code.writes,
      ∃ limbs ∈ groups, pool.limbs? id = some limbs := by
    intro id hid
    obtain ⟨limbs, hin, hlimbs⟩ := exists_of_forall₂ hgroups hid
    exact ⟨limbs, hin, tryLimbs_ok_iff.1 hlimbs⟩
  refine ⟨fun id hid hu => ?_, fun hall id hid hu => ?_, fun hsingle => ?_⟩
  · obtain ⟨limbs, -, hlimbs⟩ := hgroup id (hmem id hid hu)
    exact ⟨limbs, hlimbs⟩
  · obtain ⟨limbs, hin, hlimbs⟩ := hgroup id (hmem id hid hu)
    have hlen := List.all_eq_true.1 hall limbs hin
    obtain ⟨limb, rfl⟩ := List.length_eq_one_iff.1 (by simpa using hlen)
    exact ⟨limb, hlimbs⟩
  · refine List.all_eq_true.2 fun limbs hin => ?_
    obtain ⟨id, hid, hlimbs⟩ := exists_of_forall₂ hgroups.flip hin
    rw [Microcode.reads, Microcode.writes, ← List.filter_append] at hid
    obtain ⟨hid, hu⟩ := List.mem_filter.1 hid
    obtain ⟨limb, hlimb⟩ := hsingle id hid hu
    have hsome := tryLimbs_ok_iff.1 hlimbs
    rw [hlimb] at hsome
    cases hsome
    rfl

theorem firstLimb_eq {limb : RegId} (h : pool.limbs? id = some [limb]) :
    pool.firstLimb id = limb := by
  simp [firstLimb, h]

@[simp] theorem firstLimb_unused (pool : Pool) : pool.firstLimb .unused = .unused := rfl

theorem Extends.firstLimb_eq (h : early.Extends pool) : early.firstLimb = pool.firstLimb := by
  funext id
  rw [firstLimb, firstLimb, h.limbs?_eq]

theorem Extends.single (h : early.Extends pool) (hsingle : early.Single code) :
    pool.Single code := by
  intro id hid hu
  rw [h.limbs?_eq]
  exact hsingle id hid hu

/-- Single limbs are as wide as their registers and as different. -/
theorem Single.renames (h : pool.Single code) (hs : pool.Splits rs) :
    rs.Renames pool.registers pool.firstLimb (code.operands ++ code.targets) := by
  have hdecl : ∀ id ∈ code.operands ++ code.targets, id.isUsed = true →
      pool.registers.declares (pool.firstLimb id) = true := by
    intro id hid hu
    obtain ⟨limb, hlimb⟩ := h id hid hu
    rw [firstLimb_eq hlimb]
    exact (hs.limbs_spec hlimb).2 limb List.mem_cons_self
  refine ⟨rfl, hdecl, fun id hid => ?_, fun id hid id' hid' heq => ?_⟩
  · cases hu : id.isUsed with
    | false => rw [RegId.eq_unused hu, firstLimb_unused, RegisterFile.widthOf_unused,
        RegisterFile.widthOf_unused]
    | true =>
      obtain ⟨limb, hlimb⟩ := h id hid hu
      have hsum := congrArg List.sum (hs.limbs_spec hlimb).1
      rw [sum_limbWidths hs.width_pos] at hsum
      simpa [firstLimb_eq hlimb] using hsum
  · cases hu : id.isUsed with
    | false =>
      cases hu' : id'.isUsed with
      | false => rw [RegId.eq_unused hu, RegId.eq_unused hu']
      | true =>
        have hdecl' := hdecl id' hid' hu'
        rw [← heq, RegId.eq_unused hu] at hdecl'
        cases hdecl'
    | true =>
      cases hu' : id'.isUsed with
      | false =>
        have hdecl' := hdecl id hid hu
        rw [heq, RegId.eq_unused hu'] at hdecl'
        cases hdecl'
      | true =>
        obtain ⟨limb, hlimb⟩ := h id hid hu
        obtain ⟨limb', hlimb'⟩ := h id' hid' hu'
        rw [firstLimb_eq hlimb, firstLimb_eq hlimb'] at heq
        by_contra hne
        exact hs.disjoint_limbs hlimb hlimb' hne List.mem_cons_self (heq ▸ List.mem_cons_self)

theorem Represents.load_firstLimb (h : pool.Represents s s')
    (hid : id.isUsed = true → ∃ limb, pool.limbs? id = some [limb]) :
    s'.load (pool.firstLimb id) = s.load id := by
  cases hu : id.isUsed with
  | false => rw [RegId.eq_unused hu, firstLimb_unused, State.load_unused, State.load_unused]
  | true =>
    obtain ⟨limb, hlimb⟩ := hid hu
    rw [firstLimb_eq hlimb, ← h.packed_limbs hlimb, State.packed_singleton]

/-- Values stored both into registers and into their single limbs are represented. -/
theorem Single.represents (h : pool.Single code) (hrep : pool.Represents s s') {ids : List RegId}
    {vs : List Nat} {s₁' : State} (hsub : ids ⊆ code.operands ++ code.targets)
    (hassigned : s.Assigned ids vs s₁) (hfits : s₁.Fits)
    (hassigned' : s'.Assigned (ids.map pool.firstLimb) vs s₁') (hfits' : s₁'.Fits) :
    pool.Represents s₁ s₁' := by
  have hrename := h.renames hrep.splits
  have htouch : s'.Touches pool.registers (ids.map pool.firstLimb) s₁' :=
    ⟨hassigned'.registers_eq, hassigned'.pc_eq, hfits', fun id _ hid => hassigned'.frame id hid⟩
  have htaken := List.forall₂_iff_get.1 hassigned.taken
  have htaken' := List.forall₂_iff_get.1 (List.forall₂_map_left_iff.1 hassigned'.taken)
  refine hrep.of_touches hassigned hfits hrep.splits (.refl pool) (fun limb hlimb hu => ?_) htouch
    (fun id hid => ?_)
  · obtain ⟨id, hid, rfl⟩ := List.mem_map.1 hlimb
    rw [hrename.isUsed_eq (hsub hid)] at hu
    obtain ⟨limb, hone⟩ := h id (hsub hid) hu
    exact ⟨id, hid, [limb], hone, by rw [firstLimb_eq hone]; exact List.mem_cons_self⟩
  · cases hu : id.isUsed with
    | false =>
      rw [RegId.eq_unused hu]
      rfl
    | true =>
      obtain ⟨limb, hone⟩ := h id (hsub hid) hu
      obtain ⟨i, hi, rfl⟩ := List.getElem_of_mem hid
      have hi' : i < vs.length := htaken.1 ▸ hi
      have hvalue := htaken.2 i hi hi' hu
      have hvalue' := htaken'.2 i hi hi' ((hrename.isUsed_eq (hsub hid)).trans hu)
      simp only [List.get_eq_getElem] at hvalue hvalue'
      rw [read, hone, Option.getD_some, State.packed_singleton, ← firstLimb_eq hone,
        hvalue, hvalue']

theorem Single.packed_map (h : pool.Single code) (hrep : pool.Represents s s') {ids : List RegId}
    (hsub : ids ⊆ code.operands ++ code.targets) :
    s'.packed (ids.map pool.firstLimb) = s.packed ids := by
  unfold State.packed
  rw [hrep.registers_eq, ((h.renames hrep.splits).of_subset hsub).widths_map, List.map_map]
  exact congrArg _ (List.map_congr_left fun id hid => hrep.load_firstLimb (h id (hsub hid)))

end Pool

/-! ## Comparisons -/

namespace Microcode

variable {code : Microcode} {s : State}

/-- The microcode compares the numbers packed into `left` and `right`, or the first of them with a
constant if nothing is given on the right, and branches by `distance`. -/
inductive Compares : Microcode → List RegId → Option (List RegId) → Nat → Nat → Prop
  | skip (left right : RegId) (constant distance : Nat) :
    Compares (.skip left right constant distance) [left] (if right.isUsed then some [right]
      else none) constant distance
  | skipIf (left right : List RegId) (constant distance : Nat) :
    Compares (.skipIf left right constant distance) left (if right = [] then none else some right)
      constant distance

theorem exists_compares {distance : Nat} (h : code.skipDistance = some distance) :
    ∃ left right constant, code.Compares left right constant distance := by
  cases code with
  | skip left right constant distance =>
    cases h
    exact ⟨_, _, _, .skip left right constant distance⟩
  | skipIf left right constant distance =>
    cases h
    exact ⟨_, _, _, .skipIf left right constant distance⟩
  | _ => cases h

theorem runnable_withSkip_iff {rs : RegisterFile} (distance : Nat) :
    (code.withSkip distance).Runnable rs ↔ code.Runnable rs := by
  cases code with
  | _ => rfl

namespace Compares

variable {left : List RegId} {right : Option (List RegId)} {constant distance : Nat}

theorem skipDistance_eq (h : code.Compares left right constant distance) :
    code.skipDistance = some distance := by
  cases h with
  | skip left right constant distance => rfl
  | skipIf left right constant distance => rfl

theorem polynomial?_eq (h : code.Compares left right constant distance) :
    code.polynomial? = none := by
  cases h with
  | skip left right constant distance => rfl
  | skipIf left right constant distance => rfl

theorem targets_eq (h : code.Compares left right constant distance) : code.targets = [] := by
  cases h with
  | skip left right constant distance => rfl
  | skipIf left right constant distance => rfl

theorem sides_subset (h : code.Compares left right constant distance) :
    left ++ right.getD [] ⊆ code.operands := by
  cases h with
  | skip left right constant distance =>
    cases hright : right.isUsed with
    | true => simp [operands]
    | false => simp [operands]
  | skipIf left right constant distance =>
    by_cases hnil : right = []
    · simp [operands, hnil]
    · simp [operands, hnil]

theorem withSkip (h : code.Compares left right constant distance) (distance' : Nat) :
    (code.withSkip distance').Compares left right constant distance' := by
  cases h with
  | skip left right constant distance => exact .skip left right constant distance'
  | skipIf left right constant distance => exact .skipIf left right constant distance'

/-- A renamed comparison compares the renamed sides. -/
theorem mapRegs {f : RegId → RegId} (h : code.Compares left right constant distance)
    (hunused : f .unused = .unused) (hused : ∀ id ∈ code.operands, (f id).isUsed = id.isUsed) :
    (code.mapRegs f).Compares (left.map f) (right.map (List.map f)) constant distance := by
  have hg := guarded_eq hunused
  cases h with
  | skip left right constant distance =>
    have hright := hused right (List.mem_cons_of_mem _ List.mem_cons_self)
    have hcompares := Compares.skip (f left) (f right) constant distance
    simp only [Microcode.mapRegs, hg]
    rw [hright] at hcompares
    cases hu : right.isUsed with
    | true => simpa [hu] using hcompares
    | false => simpa [hu] using hcompares
  | skipIf left right constant distance =>
    have hcompares := Compares.skipIf (left.map f) (right.map f) constant distance
    simp only [Microcode.mapRegs, hg]
    by_cases hnil : right = []
    · simpa [hnil] using hcompares
    · simpa [hnil] using hcompares

/-- An operand that is not left out is on one of the sides. -/
theorem mem_sides (h : code.Compares left right constant distance) {id : RegId}
    (hused : id.isUsed = true) (hid : id ∈ code.operands) : id ∈ left ++ right.getD [] := by
  cases h with
  | skip left right constant distance =>
    cases hright : right.isUsed with
    | true => simpa [operands] using hid
    | false =>
      have hne : id ≠ right := fun heq => by rw [heq, hright] at hused; cases hused
      simpa [operands, hne] using hid
  | skipIf left right constant distance =>
    by_cases hnil : right = []
    · simpa [operands, hnil] using hid
    · simpa [operands, hnil] using hid

theorem subset_reads (h : code.Compares left right constant distance)
    (hused : ∀ id ∈ left ++ right.getD [], id.isUsed = true) :
    left ++ right.getD [] ⊆ code.reads := fun id hid =>
  List.mem_filter.2 ⟨h.sides_subset hid, hused id hid⟩

theorem does (h : code.Compares left right constant distance) (hrun : code.Runnable s.registers) :
    code.Does s (.compare (s.packed left) ((right.map s.packed).getD constant) distance) s := by
  cases h with
  | skip left right constant distance =>
    have hright : ((if right.isUsed then some [right] else none).map s.packed).getD constant =
        if right.isUsed then s.load right else constant := by
      split
      · exact s.packed_singleton right
      · rfl
    rw [hright, State.packed_singleton]
    intro σ io m
    rfl
  | skipIf left right constant distance =>
    have hright : ((if right = [] then none else some right).map s.packed).getD constant =
        if right = [] then constant else s.packed right := by
      split
      · rfl
      · rfl
    rw [hright]
    intro σ io m
    rw [← s.pack_eq hrun.1, ← s.pack_eq hrun.2]
    rfl

end Compares

end Microcode

section Comparisons

variable {pool : Pool} {code : Microcode} {offset distance : Nat} {s s' : State}
  {left right constant : Nat}

theorem Fragment.runs_compare {fragment : Fragment} {b : Branch}
    (hbranch : fragment.branch = some b)
    (h : ∀ d, (fragment.settled d).Does s (.compare left right d) s) :
    Fragment.Runs [fragment] s (if left = right then .fall else .branch b) s := by
  unfold Step.compare at h
  by_cases heq : left = right
  · simp only [heq, ne_eq, not_true_eq_false, if_false, if_true] at h ⊢
    exact .next h (.nil s)
  · simp only [heq, ne_eq, not_false_eq_true, if_true, if_false] at h ⊢
    exact .branch hbranch h

/-- Fragments that branch where a comparison does. -/
theorem Fragment.simulate_compare {fragments : List Fragment}
    (hcode : code.Does s (.compare left right distance) s)
    (hruns : Fragment.Runs fragments s' (if left = right then .fall
      else .branch (.offset (Microcode.landing offset distance))) s')
    (hrep : pool.Represents s s') : Fragment.Simulate pool code offset fragments s s' :=
  ⟨_, s, _, s', hcode, hruns, Step.matches_compare _ _ _ _, fun _ => hrep⟩

end Comparisons

/-! ## One microcode -/

namespace Microcode

variable {pool early later : Pool} {code : Microcode} {offset : Nat} {s s' : State}
  {rs : RegisterFile} {fragments : List Fragment}

theorem isLocal_mapRegs (f : RegId → RegId) (code : Microcode) :
    (code.mapRegs f).isLocal = code.isLocal := by
  cases code <;> rfl

theorem effect_targets_subset (rs : RegisterFile) (load : RegId → Nat) (code : Microcode) :
    (code.effect rs load).targets ⊆ code.targets := by
  cases code with
  | assign targets rhs => exact List.Subset.refl _
  | add targets sources constant => exact List.Subset.refl _
  | sub targets sources constant => exact List.Subset.refl _
  | mul targets sources constant => exact List.Subset.refl _
  | cast targets source width =>
    simp only [effect]
    split
    · exact List.nil_subset _
    · exact List.Subset.refl _
  | div quotient remainder witness dividend divisor =>
    simp only [effect]
    split
    · exact List.nil_subset _
    · exact List.Subset.refl _
  | _ => exact List.nil_subset _

/-- A microcode that is no comparison goes on to the next one or leaves the instruction. -/
theorem effect_step (rs : RegisterFile) (load : RegId → Nat) (h : code.skipDistance = none) :
    (code.effect rs load).step = .skip 1 ∨ (code.effect rs load).step.leaves = true := by
  have hleads := leads_effect rs load code
  cases hstep : (code.effect rs load).step with
  | skip count =>
    rw [hstep] at hleads
    obtain ⟨-, rfl | ⟨distance, hskip, -⟩⟩ := hleads
    · exact .inl rfl
    · rw [h] at hskip
      cases hskip
  | jump pc => exact .inr rfl
  | ret => exact .inr rfl
  | fail => exact .inr rfl

/-- A renamed microcode that is no comparison simulates the microcode. -/
theorem simulate_rename_plain (hsingle : pool.Single code) (hskip : code.skipDistance = none)
    (hlocal : code.isLocal = true) (hrun : code.Runnable s.registers)
    (hrep : pool.Represents s s') :
    Fragment.Simulate pool code offset [code.rename offset pool] s s' := by
  have hrename := hsingle.renames hrep.splits
  have hrun' : (code.mapRegs pool.firstLimb).Runnable s'.registers := by
    rw [hrep.registers_eq]
    exact runnable_mapRegs hrename hrun
  have heffect : (code.mapRegs pool.firstLimb).effect s'.registers s'.load =
      { code.effect s.registers s.load with
        targets := (code.effect s.registers s.load).targets.map pool.firstLimb } := by
    rw [hrep.registers_eq]
    exact effect_mapRegs hrename fun id hid =>
      hrep.load_firstLimb (hsingle id (List.mem_append_left _ hid))
  obtain ⟨s₁, hdoes, hassigned, htakes⟩ := does_effect hlocal hrun hrep.fits
  obtain ⟨s₁', hdoes', hassigned', htakes'⟩ :=
    does_effect ((isLocal_mapRegs _ code).trans hlocal) hrun' hrep.limbs_fit
  rw [heffect] at hdoes' hassigned' htakes'
  have hsub := List.Subset.trans (effect_targets_subset s.registers s.load code)
    (List.subset_append_right code.operands code.targets)
  have hrep₁ :=
    hsingle.represents hrep hsub hassigned (hassigned.fits hrep.fits htakes) hassigned'
    (hassigned'.fits hrep.limbs_fit htakes')
  -- without a comparison there is no distance to settle
  have hsettled : ∀ d, (code.rename offset pool).settled d = code.mapRegs pool.firstLimb := by
    intro d
    simp [Fragment.settled, rename, hskip]
  have hfirst : ∀ d, ((code.rename offset pool).settled d).Does s'
      (code.effect s.registers s.load).step s₁' := by
    intro d
    rw [hsettled]
    exact hdoes'
  rcases effect_step s.registers s.load hskip with hnext | hleaves
  · rw [hnext] at hdoes hfirst
    exact ⟨_, s₁, _, s₁', hdoes, .next hfirst (.nil s₁'), .next, fun _ => hrep₁⟩
  · exact ⟨_, s₁, _, s₁', hdoes, .leave hleaves hfirst, .leave hleaves, fun _ => hrep₁⟩

/-- A renamed microcode simulates the microcode. -/
theorem simulate_rename (hsingle : pool.Single code) (hlocal : code.isLocal = true)
    (hrun : code.Runnable s.registers) (hrep : pool.Represents s s') :
    Fragment.Simulate pool code offset [code.rename offset pool] s s' := by
  cases hskip : code.skipDistance with
  | none => exact simulate_rename_plain hsingle hskip hlocal hrun hrep
  | some distance =>
    obtain ⟨left, right, constant, hcompares⟩ := exists_compares hskip
    have hrename := hsingle.renames hrep.splits
    have hmapped := hcompares.mapRegs hrename.unused fun id hid =>
      hrename.isUsed_eq (List.mem_append_left _ hid)
    -- both sides read the same through their single limbs
    have hpacked : ∀ ids ⊆ left ++ right.getD [],
        s'.packed (ids.map pool.firstLimb) = s.packed ids := fun ids hids =>
      hsingle.packed_map hrep fun _ hid =>
        List.mem_append_left _ (hcompares.sides_subset (hids hid))
    have hleft := hpacked left (List.subset_append_left _ _)
    have hright : ((right.map (List.map pool.firstLimb)).map s'.packed).getD constant =
        (right.map s.packed).getD constant := by
      cases right with
      | none => rfl
      | some ids => exact hpacked ids (List.subset_append_right _ _)
    have hrun' := runnable_mapRegs hrename hrun
    rw [← hrep.registers_eq] at hrun'
    have hbranch : (code.rename offset pool).branch = some (.offset (landing offset distance)) := by
      rw [rename, hskip]
      rfl
    refine Fragment.simulate_compare (hcompares.does hrun) ?_ hrep
    refine Fragment.runs_compare hbranch fun d => ?_
    have hsettled : (code.rename offset pool).settled d =
        (code.mapRegs pool.firstLimb).withSkip d := by
      rw [Fragment.settled, hbranch]
      rfl
    rw [hsettled, ← hleft, ← hright]
    exact @Compares.does _ _ _ _ _ _ (hmapped.withSkip d) ((runnable_withSkip_iff d).2 hrun')

/-- Fragments that leave the right number in the limbs of the targets simulate a microcode that
spreads it over the targets. -/
theorem simulate_store {targets limbIds : List RegId} {n : Nat} {s₁' : State}
    (hlocal : code.isLocal = true) (hrun : code.Runnable s.registers) (hrep : pool.Represents s s')
    (heffect : code.effect s.registers s.load =
      ⟨targets, Digits.cut (s.registers.widths targets) n, .skip 1⟩)
    (hearly : early.Splits s.registers) (hext : early.Extends pool)
    (hflat : pool.flatten targets = .ok limbIds) (hruns : Fragment.Runs fragments s' .fall s₁')
    (htouch : s'.Touches early.registers limbIds s₁') (hpacked : s₁'.packed limbIds = n) :
    Fragment.Simulate pool code offset fragments s s' := by
  obtain ⟨s₁, hdoes, hassigned, htakes⟩ := does_effect hlocal hrun hrep.fits
  rw [heffect] at hdoes hassigned htakes
  have hn : n < 2 ^ (s.registers.widths targets).sum := by
    have hlt := htouch.fits.packed_lt limbIds
    rwa [hpacked, htouch.registers_eq, hrep.registers_eq,
      hrep.splits.sum_widths_flatten hflat] at hlt
  have hrep₁ := hrep.store hassigned (hassigned.fits hrep.fits htakes) hn hearly hext hflat htouch
    hpacked
  exact ⟨_, s₁, _, s₁', hdoes, hruns, .next, fun _ => hrep₁⟩

theorem simulate_stores {codes : List Microcode} {targets : List RegId}
    {value : (RegId → Nat) → Nat} (h : Pool.Stores rs early later codes targets value)
    (hlocal : code.isLocal = true) (hrun : code.Runnable rs) (hrs : s.registers = rs)
    (heffect : code.effect rs s.load =
      ⟨targets, Digits.cut (rs.widths targets) (value s.load), .skip 1⟩)
    (hearly : early.Splits rs) (hext : later.Extends pool) (hrep : pool.Represents s s')
    (hnarrow : ∀ fragment ∈ codes.map Fragment.plain, fragment.code.Narrow pool.registers) :
    Fragment.Simulate pool code offset (codes.map Fragment.plain) s s' := by
  subst hrs
  obtain ⟨limbIds, s₁', hflat, hruns, htouch, hpacked⟩ := h.runs hext hrep rfl
    fun code hcode => hnarrow _ (List.mem_map_of_mem hcode)
  exact simulate_store hlocal hrun hrep heffect hearly (h.grows.trans hext) hflat
    (Fragment.runs_plain hruns) htouch hpacked

end Microcode

/-! ## Divisions -/

theorem Pool.onlyLimb_ok {pool : Pool} {site : Site} {id limb : RegId}
    (h : pool.onlyLimb site id = .ok limb) :
    limb = pool.firstLimb id ∧ (id.isUsed = true → ∃ limb, pool.limbs? id = some [limb]) := by
  unfold onlyLimb at h
  cases hu : id.isUsed with
  | false =>
    rw [RegId.eq_unused hu] at h ⊢
    cases h
    exact ⟨rfl, fun h => nomatch h⟩
  | true =>
    simp only [hu, if_true] at h
    obtain ⟨limbs, hlimbs, h⟩ := except_bind_ok.1 h
    rw [tryLimbs_ok_iff] at hlimbs
    match limbs with
    | [first] =>
      cases h
      exact ⟨(firstLimb_eq hlimbs).symm, fun _ => ⟨_, hlimbs⟩⟩
    | [] => cases h
    | _ :: _ :: _ => cases h

namespace Microcode

variable {pool early later : Pool} {code : Microcode} {offset : Nat} {s s' : State}
  {rs : RegisterFile} {fragments : List Fragment}

/-- A division is split only if all its operands have single limbs. -/
theorem lower_div {quotient remainder witness dividend divisor : RegId}
    (h : lower ⟨.div quotient remainder witness dividend divisor, rs⟩ offset early =
      .ok fragments later) :
    early = later ∧ early.Single (.div quotient remainder witness dividend divisor) ∧
      fragments = [(div quotient remainder witness dividend divisor).rename offset early] := by
  simp only [lower] at h
  obtain ⟨hask, rfl⟩ := Pool.asking_ok.1 h
  obtain ⟨q, hq, h⟩ := except_bind_ok.1 hask
  obtain ⟨r, hr, h⟩ := except_bind_ok.1 h
  obtain ⟨w, hw, h⟩ := except_bind_ok.1 h
  obtain ⟨n, hn, h⟩ := except_bind_ok.1 h
  obtain ⟨d, hd, h⟩ := except_bind_ok.1 h
  obtain ⟨rfl, hquotient⟩ := Pool.onlyLimb_ok hq
  obtain ⟨rfl, hremainder⟩ := Pool.onlyLimb_ok hr
  obtain ⟨rfl, hwitness⟩ := Pool.onlyLimb_ok hw
  obtain ⟨rfl, hdividend⟩ := Pool.onlyLimb_ok hn
  obtain ⟨rfl, hdivisor⟩ := Pool.onlyLimb_ok hd
  cases h
  refine ⟨rfl, fun id hid => ?_, ?_⟩
  · simp only [operands, targets, List.cons_append, List.nil_append, List.mem_cons,
      List.not_mem_nil, or_false] at hid
    rcases hid with rfl | rfl | rfl | rfl | rfl
    · exact hdividend
    · exact hdivisor
    · exact hquotient
    · exact hremainder
    · exact hwitness
  · have hg := guarded_eq (Pool.firstLimb_unused early)
    simp only [rename, mapRegs, hg, skipDistance, Option.map_none]
    rfl

/-! ## What a microcode is lowered to -/

/-- A sum or product goes on to the next microcode. -/
theorem goesOn_sum {p : Polynomial} (hp : code.polynomial? = some p) :
    code.isTerminal = false ∧ code.skipDistance = none := by
  cases code with
  | assign targets rhs => exact ⟨rfl, rfl⟩
  | add targets sources constant => exact ⟨rfl, rfl⟩
  | mul targets sources constant => exact ⟨rfl, rfl⟩
  | _ => cases hp

theorem lower_sum_eq {p : Polynomial} (hp : code.polynomial? = some p) :
    lower ⟨code, rs⟩ offset =
      (do return (← splitPolynomial ⟨code, rs⟩ code.targets p).map Fragment.plain) := by
  cases code with
  | assign targets rhs => cases hp; rfl
  | add targets sources constant => cases hp; rfl
  | mul targets sources constant => cases hp; rfl
  | _ => cases hp

theorem Compares.lower_eq {left : List RegId} {right : Option (List RegId)}
    {constant distance : Nat} (h : code.Compares left right constant distance) :
    lower ⟨code, rs⟩ offset =
      splitComparison ⟨code, rs⟩ left right constant (landing offset distance) := by
  cases h with
  | skip left right constant distance => rfl
  | skipIf left right constant distance => rfl

/-- The ways in which a microcode is lowered. Sums and products are split as polynomials; what can
only be renamed needs single limbs. -/
inductive LowersTo (rs : RegisterFile) (offset : Nat) (early : Pool) :
    Microcode → List Fragment → Pool → Prop
  | sum {code : Microcode} {p : Polynomial} {codes : List Microcode} {later : Pool}
      (hp : code.polynomial? = some p)
      (h : splitPolynomial ⟨code, rs⟩ code.targets p early = .ok codes later) :
      LowersTo rs offset early code (codes.map Fragment.plain) later
  | difference {targets sources : List RegId} {constant : Nat} {codes : List Microcode}
      {later : Pool}
      (h : splitSubtraction ⟨sub targets sources constant, rs⟩ targets sources constant early =
        .ok codes later) :
      LowersTo rs offset early (sub targets sources constant) (codes.map Fragment.plain) later
  | copy {targets : List RegId} {source : RegId} {width : Nat} {fragments : List Fragment}
      {later : Pool}
      (h : splitCast ⟨cast targets source width, rs⟩ targets source width early =
        .ok fragments later) :
      LowersTo rs offset early (cast targets source width) fragments later
  | comparison {code : Microcode} {left : List RegId} {right : Option (List RegId)}
      {constant distance : Nat} {fragments : List Fragment} {later : Pool}
      (hcompares : code.Compares left right constant distance)
      (h : splitComparison ⟨code, rs⟩ left right constant (landing offset distance) early =
        .ok fragments later) : LowersTo rs offset early code fragments later
  | renamed {code : Microcode} (hsingle : early.Single code) (hlocal : code.isLocal = true) :
      LowersTo rs offset early code [code.rename offset early] early
  | lines {bus : Nat} {targets sources targets' sources' : List RegId}
      (htargets : early.flatten targets = .ok targets')
      (hsources : early.flatten sources = .ok sources') :
      LowersTo rs offset early (call bus targets sources) [.plain (call bus targets' sources')]
        early

theorem lower_ok (h : lower ⟨code, rs⟩ offset early = .ok fragments later) :
    code.LowersTo rs offset early fragments later := by
  have hsum : ∀ {p : Polynomial}, code.polynomial? = some p →
      code.LowersTo rs offset early fragments later := by
    intro p hp
    rw [lower_sum_eq hp] at h
    obtain ⟨codes, mid, hcodes, h⟩ := estate_bind_ok.1 h
    obtain ⟨rfl, rfl⟩ := estate_pure_ok.1 h
    exact .sum hp hcodes
  cases code with
  | assign targets rhs => exact hsum rfl
  | add targets sources constant => exact hsum rfl
  | mul targets sources constant => exact hsum rfl
  | sub targets sources constant =>
    obtain ⟨codes, mid, hcodes, h⟩ := estate_bind_ok.1 h
    obtain ⟨rfl, rfl⟩ := estate_pure_ok.1 h
    exact .difference hcodes
  | cast targets source width => exact .copy h
  | div quotient remainder witness dividend divisor =>
    obtain ⟨rfl, hsingle, rfl⟩ := lower_div h
    exact .renamed hsingle rfl
  | skip left right constant distance => exact .comparison (.skip left right constant distance) h
  | skipIf left right constant distance =>
    exact .comparison (.skipIf left right constant distance) h
  | call bus targets sources =>
    simp only [lower] at h
    obtain ⟨hask, rfl⟩ := Pool.asking_ok.1 h
    obtain ⟨targets', htargets, hask⟩ := except_bind_ok.1 hask
    obtain ⟨sources', hsources, hask⟩ := except_bind_ok.1 hask
    cases hask
    exact .lines htargets hsources
  | jmp target =>
    obtain ⟨rfl, rfl⟩ := estate_pure_ok.1 h
    exact .renamed (List.forall_mem_nil _) rfl
  | ret =>
    obtain ⟨rfl, rfl⟩ := estate_pure_ok.1 h
    exact .renamed (List.forall_mem_nil _) rfl
  | fail =>
    obtain ⟨rfl, rfl⟩ := estate_pure_ok.1 h
    exact .renamed (List.forall_mem_nil _) rfl

/-! ## Expansions -/

theorem expand_ok (h : code.expand rs offset early = .ok fragments later) :
    (∀ id ∈ code.operands ++ code.targets, id.isUsed = true →
      ∃ limbs, early.limbs? id = some limbs) ∧
        ((early = later ∧ early.Single code ∧ fragments = [code.rename offset early]) ∨
        (¬ early.Single code ∧ lower ⟨code, rs⟩ offset early = .ok fragments later)) := by
  unfold expand at h
  obtain ⟨single, mid, hask, h⟩ := estate_bind_ok.1 h
  obtain ⟨hsingle, rfl⟩ := Pool.asking_ok.1 hask
  obtain ⟨hknown, hone⟩ := Pool.isSingle_ok hsingle
  refine ⟨hknown, ?_⟩
  cases single with
  | true =>
    simp only [if_true, estate_get_bind] at h
    obtain ⟨rfl, rfl⟩ := estate_pure_ok.1 h
    exact .inl ⟨rfl, hone.1 rfl, rfl⟩
  | false => exact .inr ⟨fun hsingle => Bool.false_ne_true (hone.2 hsingle), h⟩

/-- A constant that is compared with registers is no wider than they are. -/
def Comparable (rs : RegisterFile) : Microcode → Prop
  | skip left right constant _ => right.isUsed = false → constant < 2 ^ rs.widthOf left
  | skipIf left right constant _ => right = [] → constant < 2 ^ (rs.widths left).sum
  | _ => True

theorem comparable_of_validate {scope : Scope} (hvalid : code.validate scope = .ok ())
    (hsized : code.Sized scope.registers) : code.Comparable scope.registers := by
  obtain ⟨-, hrule⟩ := validate_ok_iff.1 hvalid
  cases code with
  | skip left right constant distance =>
    intro hu
    simpa [hu] using hrule.1
  | skipIf left right constant distance =>
    intro hnil
    have hconstant : constant < 2 ^ scope.registers.totalWidth left := by simpa [hnil] using hrule.1
    rwa [RegisterFile.totalWidth_eq (hsized left (by simp [packedLists]))] at hconstant
  | _ => trivial

theorem simulate_renamed (hsingle : early.Single code) (hlocal : code.isLocal = true)
    (hrun : code.Runnable rs) (hrs : s.registers = rs) (hext : early.Extends pool)
    (hrep : pool.Represents s s') :
    Fragment.Simulate pool code offset [code.rename offset early] s s' := by
  subst hrs
  rw [rename, hext.firstLimb_eq]
  exact simulate_rename (hext.single hsingle) hlocal hrun hrep

/-- A guarded copy stores the source, or fails where the source does not fit. -/
theorem simulate_cast {targets : List RegId} {source : RegId} {width : Nat}
    (hrun : (cast targets source width).Runnable s.registers) (hrep : pool.Represents s s')
    (hearly : early.Splits s.registers) (hext : early.Extends pool)
    (hkept : s.load source < 2 ^ width → ∃ limbIds s₁', pool.flatten targets = .ok limbIds ∧
      Fragment.Runs fragments s' .fall s₁' ∧ s'.Touches early.registers limbIds s₁' ∧
      s₁'.packed limbIds = s.load source)
    (hlost : 2 ^ width ≤ s.load source → ∃ exit s₁',
      Fragment.Runs fragments s' exit s₁' ∧ (exit = .branch .trailer ∨ exit = .leave .fail)) :
    Fragment.Simulate pool (cast targets source width) offset fragments s s' := by
  by_cases hfit : s.load source < 2 ^ width
  · have hnot : ¬ width < bitLength (s.load source) := by
      have := bitLength_le_iff.2 hfit
      omega
    obtain ⟨limbIds, s₁', hflat, hruns, htouch, hpacked⟩ := hkept hfit
    refine simulate_store rfl hrun hrep ?_ hearly hext hflat hruns htouch hpacked
    simp only [effect, hnot, if_false]
    rfl
  · have hwide : width < bitLength (s.load source) := by
      by_contra hle
      exact hfit (bitLength_le_iff.1 (Nat.le_of_not_lt hle))
    obtain ⟨exit, s₁', hruns, hexit⟩ := hlost (Nat.le_of_not_lt hfit)
    obtain ⟨s₁, hdoes, -, -⟩ := does_effect rfl hrun hrep.fits
    simp only [effect, hwide, if_true] at hdoes
    refine ⟨.fail, s₁, exit, s₁', hdoes, hruns, ?_, fun hne => absurd rfl hne⟩
    rcases hexit with rfl | rfl
    · exact .guard
    · exact .leave rfl

namespace Compares

variable {left : List RegId} {right : Option (List RegId)} {constant distance : Nat}

theorem runnable (h : code.Compares left right constant distance) (hsized : code.Sized rs) :
    code.Runnable rs := by
  cases h with
  | skip left right constant distance => trivial
  | skipIf left right constant distance =>
    exact ⟨hsized left List.mem_cons_self,
      hsized right (List.mem_cons_of_mem _ List.mem_cons_self)⟩

/-- The total widths of the two sides are sizes. -/
theorem sides_lt (h : code.Compares left right constant distance) (hrun : code.Runnable rs)
    (hsize : ∀ id, rs.widthOf id < Word.modulus) : (rs.widths left).sum < Word.modulus ∧
      ∀ ids, right = some ids → (rs.widths ids).sum < Word.modulus := by
  cases h with
  | skip left right constant distance =>
    refine ⟨by simpa using hsize left, fun ids hids => ?_⟩
    obtain ⟨-, hids⟩ := Option.ite_none_right_eq_some.1 hids
    cases hids
    simpa using hsize right
  | skipIf left right constant distance =>
    refine ⟨hrun.1, fun ids hids => ?_⟩
    obtain ⟨-, hids⟩ := Option.ite_none_left_eq_some.1 hids
    cases hids
    exact hrun.2

/-- A constant on the right fits the left side. -/
theorem constant_lt (h : code.Compares left right constant distance) (hcomp : code.Comparable rs)
    (hnone : right = none) : constant < 2 ^ (rs.widths left).sum := by
  cases h with
  | skip left right constant distance =>
    have hunused : right.isUsed = false := by simpa using hnone
    simpa using hcomp hunused
  | skipIf left right constant distance =>
    have hnil : right = [] := by simpa using hnone
    exact hcomp hnil

/-- What is asked of a comparison whose sides have sizes as widths: these agree, or a constant on
the right fits, and the field can take them. -/
theorem rule_iff {scope : Scope} (h : code.Compares left right constant distance)
    (hsized : code.Sized scope.registers) : code.Rule scope ↔
      ((∀ ids, right = some ids →
          (scope.registers.widths left).sum = (scope.registers.widths ids).sum) ∧
        (right = none → constant < 2 ^ (scope.registers.widths left).sum)) ∧
      (scope.registers.widths left).sum ≤ scope.field.bandwidth := by
  cases h with
  | skip left right constant distance =>
    cases hright : right.isUsed with
    | true => simp [Rule, hright]
    | false => simp [Rule, hright]
  | skipIf left right constant distance =>
    have hleft := RegisterFile.totalWidth_eq (hsized left List.mem_cons_self)
    have hright := RegisterFile.totalWidth_eq
      (hsized right (List.mem_cons_of_mem _ List.mem_cons_self))
    by_cases hnil : right = []
    · simp [Rule, hnil, hleft]
    · simp [Rule, hnil, hleft, hright]

end Compares

/-- The fragments of a microcode with some register of several limbs simulate it. -/
theorem lower_simulates (h : lower ⟨code, rs⟩ offset early = .ok fragments later)
    (hlocal : code.isLocal = true) (hrun : code.Runnable rs) (hcomp : code.Comparable rs)
    (hs : early.Splits rs) (hsize : ∀ id, rs.widthOf id < Word.modulus) :
    early.Extends later ∧ ∀ {pool : Pool} {s s' : State}, later.Extends pool →
      pool.Represents s s' → s.registers = rs →
      (∀ fragment ∈ fragments, fragment.code.Narrow pool.registers) →
      Fragment.Simulate pool code offset fragments s s' := by
  cases lower_ok h with
  | sum hp h =>
    obtain ⟨ht, hmax⟩ := (runnable_sum_iff hp).1 hrun
    have hstores := splitPolynomial_stores h hs hsize ht hmax
    refine ⟨hstores.grows, fun hext hrep hrs hnarrow => ?_⟩
    exact simulate_stores hstores hlocal hrun hrs (effect_sum hp) hs hext hrep hnarrow
  | difference h =>
    have hrun' := hrun
    obtain ⟨minuend, subtrahends, pivot, rfl, hsub⟩ := hrun
    have hstores := splitSubtraction_stores h hs hsize hsub
    refine ⟨hstores.grows, fun hext hrep hrs hnarrow => ?_⟩
    exact simulate_stores hstores rfl hrun' hrs rfl hs hext hrep hnarrow
  | copy h =>
    obtain ⟨hgrows, hcast⟩ := splitCast_runs h hs hsize hrun.1 hrun.2
    refine ⟨hgrows, fun hext hrep hrs hnarrow => ?_⟩
    obtain ⟨hkept, hlost⟩ := hcast hext hrep hrs hnarrow
    subst hrs
    exact simulate_cast hrun hrep hs (hgrows.trans hext) hkept hlost
  | comparison hcompares h =>
    obtain ⟨hleft, hright⟩ := hcompares.sides_lt hrun hsize
    obtain ⟨rfl, hruns⟩ := splitComparison_runs h hs hleft hright (hcompares.constant_lt hcomp)
    refine ⟨.refl early, fun hext hrep hrs _ => ?_⟩
    subst hrs
    exact Fragment.simulate_compare (hcompares.does hrun) (hruns hext hrep rfl) hrep
  | renamed hsingle =>
    refine ⟨.refl early, fun hext hrep hrs _ => ?_⟩
    exact simulate_renamed hsingle hlocal hrun hrs hext hrep
  | lines => cases hlocal

/-- **The fragments of a microcode simulate it**, once they are part of a split routine. -/
theorem expand_simulates (h : code.expand rs offset early = .ok fragments later)
    (hlocal : code.isLocal = true) (hrun : code.Runnable rs) (hcomp : code.Comparable rs)
    (hs : early.Splits rs) (hsize : ∀ id, rs.widthOf id < Word.modulus) :
    early.Extends later ∧ ∀ {pool : Pool} {s s' : State}, later.Extends pool →
      pool.Represents s s' → s.registers = rs →
      (∀ fragment ∈ fragments, fragment.code.Narrow pool.registers) →
      Fragment.Simulate pool code offset fragments s s' := by
  obtain ⟨-, ⟨rfl, hsingle, rfl⟩ | ⟨-, hlower⟩⟩ := expand_ok h
  · refine ⟨.refl early, fun hext hrep hrs _ => ?_⟩
    exact simulate_renamed hsingle hlocal hrun hrs hext hrep
  · exact lower_simulates hlower hlocal hrun hcomp hs hsize

end Microcode

end LimbMachine
