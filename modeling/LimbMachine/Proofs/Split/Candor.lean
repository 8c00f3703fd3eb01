import LimbMachine.Proofs.Exec.Footprint
import LimbMachine.Proofs.Split.Capacity
import LimbMachine.Proofs.Split.Refusals
import LimbMachine.Proofs.Split.Routine
import LimbMachine.Proofs.Split.Unfolding
import LimbMachine.Proofs.Split.Widths

/-!
# Faults that splitting keeps

The fragments of a microcode that every rule lets pass say much about the microcode itself: limbs
that hold a result have room for it, and limbs that are no inputs belong to no input. What splitting
loses is said by `Microcode.Candid`: a sum without targets leaves no fragment, a cast looks for no
bit beyond its source, and lines of a bus are compared limb by limb. A candid microcode is
acceptable where its fragments are accepted (`Microcode.ExpandsTo.acceptable`).
-/

namespace LimbMachine

open Microcode (allWrites Straight)

theorem bitLength_shifted_le (width borrow : Nat) :
    bitLength (2 ^ width - 1 + borrow <<< width) ≤ width + bitLength borrow := by
  rw [bitLength_le_iff, Nat.shiftLeft_eq, Nat.add_comm width, Nat.pow_add]
  have hborrow : borrow + 1 ≤ 2 ^ bitLength borrow := bitLength_le_iff.1 (Nat.le_refl _)
  have hmul := Nat.mul_le_mul_right (2 ^ width) hborrow
  have hpos := Nat.two_pow_pos width
  rw [Nat.add_mul, Nat.one_mul] at hmul
  omega

namespace Microcode

variable {scope scope' : Scope} {code : Microcode} {rs : RegisterFile} {offset : Nat}
  {early later pool : Pool} {fragments : List Fragment}

/-- Where no width is refused, what is acceptable is accepted. -/
theorem Acceptable.validate (h : code.Acceptable scope)
    (hsize : ∀ id, scope.registers.widthOf id < Word.modulus)
    (hcompact : code.Compact scope.registers) (hfield : Word.top ≤ scope.field.bandwidth) :
    code.validate scope = .ok () := by
  obtain ⟨bandwidth, hvalid⟩ := h
  obtain ⟨hknown, hrule⟩ := validate_ok_iff.1 hvalid
  have hwritable : ∀ {targets : List RegId}, (scope.withBandwidth bandwidth).Writable targets →
      scope.Writable targets := fun hw => ⟨hw.notInput, hw.nodup⟩
  have htop : ∀ {n : Nat}, n < Word.modulus → n ≤ scope.field.bandwidth :=
    fun hlt => (Nat.le_sub_one_of_lt hlt).trans hfield
  have hholds : ∀ {lhs rhs : Nat}, lhs < Word.modulus →
      (scope.withBandwidth bandwidth).Holds lhs rhs → scope.Holds lhs rhs :=
    fun hlt hrhs => ⟨hrhs.1, htop (Nat.lt_of_le_of_lt hrhs.1 hlt)⟩
  refine validate_ok_iff.2 ⟨hknown, ?_⟩
  cases code with
  | assign targets rhs => exact ⟨hwritable hrule.1, hholds (Word.sum_lt _) hrule.2⟩
  | add targets sources constant => exact ⟨hwritable hrule.1, hholds (Word.sum_lt _) hrule.2⟩
  | mul targets sources constant => exact ⟨hwritable hrule.1, hholds (Word.sum_lt _) hrule.2⟩
  | sub targets sources constant =>
    obtain ⟨hw, minuend, subtrahends, pivot, rfl, hsub⟩ := hrule
    refine ⟨hwritable hw, minuend, subtrahends, pivot, rfl, hsub.pivot_eq,
      hsub.borrow_le, htop ?_⟩
    -- a minuend and what is borrowed for it take no more bits than the targets have
    have hlow := subPivot_le hsub.pivot_eq
    have hhigh := hsub.borrow_le.trans (RegisterFile.totalWidth_le _ _)
    have hsum : (scope.registers.widths (targets.take pivot)).sum +
        (scope.registers.widths (targets.drop pivot)).sum =
        (scope.registers.widths targets).sum := by
      rw [← List.sum_append, ← RegisterFile.widths_append, List.take_append_drop]
    rw [RegisterFile.maxOf_eq]
    refine Nat.lt_of_le_of_lt (bitLength_shifted_le _ _) (Nat.lt_of_le_of_lt ?_ hcompact)
    exact (Nat.add_le_add hlow hhigh).trans (Nat.le_of_eq hsum)
  | cast targets source width =>
    exact ⟨hwritable hrule.1, hrule.2.1, hholds (Word.sum_lt _) hrule.2.2⟩
  | div quotient remainder witness dividend divisor =>
    obtain ⟨hw, hquotient, hremainder, hwitness⟩ := hrule
    exact ⟨hwritable hw, hholds (hsize _) hquotient, hholds (hsize _) hremainder,
      fun hused => hholds (hsize _) (hwitness hused)⟩
  | skip left right constant distance => exact ⟨hrule.1, htop (hsize left)⟩
  | skipIf left right constant distance => exact ⟨hrule.1, htop (Word.sum_lt _)⟩
  | call bus targets sources => exact ⟨hwritable hrule.1, hrule.2⟩
  | jmp target => exact hrule
  | ret => trivial
  | fail => trivial

/-- The sizes that splitting a microcode takes are sizes. -/
structure Measured (rs : RegisterFile) (code : Microcode) : Prop where
  sized : code.Sized rs
  compact : code.Compact rs
  weighed : ∀ m ∈ (code.polynomial?.getD .zero).terms, m.Weighed rs

/-! ## Registers of several limbs -/

/-- Some register is cut into several limbs of `width` bits. -/
def Wide (width : Nat) (rs : RegisterFile) (code : Microcode) : Prop :=
  ∃ id ∈ code.reads ++ code.writes, width < rs.widthOf id

instance (width : Nat) (rs : RegisterFile) (code : Microcode) : Decidable (code.Wide width rs) :=
  inferInstanceAs (Decidable (∃ id ∈ code.reads ++ code.writes, width < rs.widthOf id))

/-- The registers with a limb that some fragment reads. -/
def visible (width : Nat) (rs : RegisterFile) (code : Microcode) : List RegId :=
  if code.Wide width rs then code.live rs else code.reads

/-- A cast that leaves out a whole limb of its source, which a guard has to look at. -/
def Drops (width : Nat) (rs : RegisterFile) : Microcode → Prop
  | cast targets source bits => (cast targets source bits).Wide width rs ∧
    ∃ i, bits ≤ i * width ∧ i * width < rs.widthOf source
  | _ => False

/-- A sum that is stored nowhere, of which no fragment is left. -/
def Vanishes (width : Nat) (rs : RegisterFile) (code : Microcode) : Prop :=
  code.Wide width rs ∧ code.targets = [] ∧ code.polynomial?.isSome = true

end Microcode

theorem Pool.Splits.limbs_single_iff {pool : Pool} {rs : RegisterFile} {id : RegId}
    {limbs : List RegId} (hs : pool.Splits rs) (hid : pool.limbs? id = some limbs) :
    limbs.length = 1 ↔ rs.widthOf id ≤ pool.width := by
  have hlen : limbs.length = (limbWidths pool.width (rs.widthOf id)).length := by
    rw [← (hs.limbs_spec hid).1, RegisterFile.widths, List.length_map]
  have hwidth := hs.width_pos
  rw [hlen, Pool.length_limbWidths]
  split
  · simp [*]
  · have htwo : 2 ≤ (rs.widthOf id + pool.width - 1) / pool.width := by
      rw [Nat.le_div_iff_mul_le hwidth]
      omega
    omega

namespace Microcode

variable {scope scope' : Scope} {code : Microcode} {rs : RegisterFile} {offset : Nat}
  {early later pool : Pool} {fragments : List Fragment}

theorem single_iff (hs : pool.Splits rs)
    (hknown : ∀ id ∈ code.reads ++ code.writes, rs.declares id = true) :
    pool.Single code ↔ ¬ code.Wide pool.width rs := by
  have hmem : ∀ id, id ∈ code.reads ++ code.writes ↔
      id ∈ code.operands ++ code.targets ∧ id.isUsed = true := by
    intro id
    rw [reads, writes, ← List.filter_append, List.mem_filter]
  constructor
  · rintro hsingle ⟨id, hid, hwide⟩
    obtain ⟨limb, hlimb⟩ := hsingle id ((hmem id).1 hid).1 ((hmem id).1 hid).2
    have hle := (hs.limbs_single_iff hlimb).1 rfl
    omega
  · intro hnarrow id hid hused
    have hid' := (hmem id).2 ⟨hid, hused⟩
    obtain ⟨limbs, hlimbs⟩ := hs.limbs_of_declares (hknown id hid')
    have hle : rs.widthOf id ≤ pool.width := Nat.not_lt.1 fun hlt => hnarrow ⟨id, hid', hlt⟩
    obtain ⟨limb, rfl⟩ := List.length_eq_one_iff.1 ((hs.limbs_single_iff hlimbs).2 hle)
    exact ⟨limb, hlimbs⟩

/-- A microcode expands to itself over limbs, or it is wide. -/
theorem expand_cases (h : code.expand rs offset early = .ok fragments later)
    (hs : early.Splits rs) : (∀ id ∈ code.reads ++ code.writes, rs.declares id = true) ∧
      ((¬ code.Wide early.width rs ∧ early = later ∧ early.Single code ∧
          fragments = [code.rename offset early]) ∨
        (code.Wide early.width rs ∧
          lower ⟨code, rs⟩ offset early = .ok fragments later)) := by
  obtain ⟨hlimbs, hcases⟩ := expand_ok h
  have hknown : ∀ id ∈ code.reads ++ code.writes, rs.declares id = true := by
    intro id hid
    rw [reads, writes, ← List.filter_append, List.mem_filter] at hid
    obtain ⟨limbs, hid⟩ := hlimbs id hid.1 hid.2
    rw [← hs.limbs?_isSome, hid]
    rfl
  refine ⟨hknown, ?_⟩
  rcases hcases with ⟨heq, hsingle, hfragments⟩ | ⟨hsingle, hlower⟩
  · exact .inl ⟨(single_iff hs hknown).1 hsingle, heq, hsingle, hfragments⟩
  · exact .inr ⟨by_contra fun hnarrow => hsingle ((single_iff hs hknown).2 hnarrow), hlower⟩

/-- Where control leaves an instruction no register is read or written. -/
theorem registers_of_isTerminal (h : code.isTerminal = true) :
    code.reads = [] ∧ code.writes = [] := by
  cases code with
  | jmp target => exact ⟨rfl, rfl⟩
  | ret => exact ⟨rfl, rfl⟩
  | fail => exact ⟨rfl, rfl⟩
  | _ => cases h

theorem Wide.isTerminal {width : Nat} (h : code.Wide width rs) : code.isTerminal = false := by
  obtain ⟨id, hid, -⟩ := h
  rw [← Bool.not_eq_true]
  intro hterm
  rw [(registers_of_isTerminal hterm).1, (registers_of_isTerminal hterm).2] at hid
  cases hid

/-- Without a right side the left one holds what is compared. -/
theorem Compares.left_ne_nil {left : List RegId} {right : Option (List RegId)}
    {constant distance width : Nat} (h : code.Compares left right constant distance)
    (hwide : code.Wide width rs) (hnone : right = none) : left ≠ [] := by
  rintro rfl
  obtain ⟨id, hid, -⟩ := hwide
  have hwrites : code.writes = [] := by rw [writes, h.targets_eq]; rfl
  rw [hwrites, List.append_nil] at hid
  obtain ⟨hoperand, hused⟩ := List.mem_filter.1 hid
  have hside := h.mem_sides hused hoperand
  rw [hnone] at hside
  cases hside

/-! ## What a microcode is refused for -/

/-- Splitting into limbs of `width` bits loses no reason to refuse the microcode. -/
structure Candid (width : Nat) (scope : Scope) (code : Microcode) : Prop where
  /-- Without targets no fragment shows that a result is lost. -/
  idle : code.Wide width scope.registers → code.Idle scope.registers
  /-- Bits beyond the source are in no limb. -/
  kept : ∀ targets source bits, code = cast targets source bits →
    code.Wide width scope.registers → bits ≤ scope.registers.widthOf source
  /-- Limb by limb, different lines may be as wide. -/
  lines : ∀ bus targets sources declared, code = call bus targets sources →
    (scope.buses.find? fun b => b.id == some bus) = some declared →
    (∃ id ∈ sources ++ targets ++ declared.lines, width < scope.registers.widthOf id) →
    scope.registers.widths sources = scope.registers.widths declared.address ∧
      scope.registers.widths targets = scope.registers.widths declared.data

/-- An accepted microcode is candid: there is nothing to lose. -/
theorem candid_of_validate {width : Nat} (h : code.validate scope = .ok ()) :
    code.Candid width scope := by
  obtain ⟨-, hrule⟩ := validate_ok_iff.1 h
  have hsum : code.targets = [] → ∀ p, code.polynomial? = some p →
      p.maxValue scope.registers = 0 := by
    intro hnil p hp
    have hfits := ((rule_sum_iff hp).1 hrule).2.1
    rw [hnil] at hfits
    exact Nat.lt_one_iff.1 (bitLength_le_iff.1 hfits)
  refine ⟨fun _ hnil => ?_, ?_, ?_⟩
  · cases code with
    | cast targets source width =>
      obtain rfl : targets = [] := hnil
      exact Nat.le_zero.1 hrule.2.2.1
    | _ => exact hsum hnil
  · rintro targets source bits rfl -
    exact hrule.2.1
  · rintro bus targets sources declared rfl hfind -
    obtain ⟨-, declared', hfind', hwidths⟩ := hrule
    rw [hfind] at hfind'
    cases hfind'
    exact hwidths

end Microcode

section Lines

variable {pool : Pool} {rs : RegisterFile} {ids : List RegId} {id : RegId}

theorem Pool.Splits.exists_limb (hs : pool.Splits rs) (hid : rs.Knows id) :
    ∃ limb, limb ∈ pool.group id := by
  apply List.exists_mem_of_ne_nil
  intro hnil
  have hwidths := hs.widths_group hid
  rw [hnil] at hwidths
  exact limbWidths_ne_nil hs.width_pos hwidths.symm

theorem Pool.Splits.nodup_of_lines (hs : pool.Splits rs) (hids : ∀ id ∈ ids, rs.Knows id)
    (hnd : (ids.flatMap pool.group).Nodup) : ids.Nodup := by
  have hdisjoint := (List.nodup_flatMap.1 hnd).2
  refine hdisjoint.imp_of_mem fun {id id'} hid _ hapart heq => ?_
  obtain ⟨limb, hlimb⟩ := hs.exists_limb (hids id hid)
  exact hapart hlimb (heq ▸ hlimb)

/-- Lines of a single limb each are as wide as their limbs. -/
theorem Pool.Splits.widths_lines_of_le (hs : pool.Splits rs) (hids : ∀ id ∈ ids, rs.Knows id)
    (hle : ∀ id ∈ ids, rs.widthOf id ≤ pool.width) :
    pool.registers.widths (ids.flatMap pool.group) = rs.widths ids := by
  have hlimbs : ∀ width ∈ rs.widths ids, limbWidths pool.width width = [width] := by
    intro width hmem
    obtain ⟨id, hid, rfl⟩ := List.mem_map.1 hmem
    exact limbWidths_of_le (hle id hid)
  calc pool.registers.widths (ids.flatMap pool.group)
      = (rs.widths ids).flatMap (limbWidths pool.width) := hs.widths_lines hids
    _ = (rs.widths ids).flatMap fun width => [width] := List.flatMap_congr hlimbs
    _ = rs.widths ids := List.flatMap_singleton' _

end Lines

namespace Microcode

variable {scope scope' : Scope} {code : Microcode} {offset : Nat} {early later pool : Pool}
  {fragments : List Fragment}

theorem acceptable_of_rename (hscope : scope.SplitTo pool scope') (hlocal : code.isLocal = true)
    (hknown : ∀ id ∈ code.reads ++ code.writes, scope.registers.declares id = true)
    (hsingle : pool.Single code) (hrule : (code.mapRegs pool.firstLimb).Rule scope') :
    code.Acceptable scope :=
  ⟨scope'.field.bandwidth, validate_ok_iff.2
    ⟨hknown, (rule_rename_iff hlocal hsingle hscope scope'.field.bandwidth).1 hrule⟩⟩

theorem acceptable_of_lines {bus : Nat} {targets sources : List RegId}
    (hscope : scope.SplitTo pool scope') (hfound : ∀ number,
      (scope'.buses.find? fun b => b.id == some number).isSome = true →
        (scope.buses.find? fun b => b.id == some number).isSome = true)
    (hknown : ∀ id ∈ (call bus targets sources).reads ++ (call bus targets sources).writes,
      scope.registers.declares id = true)
    (hcandid : (call bus targets sources).Candid pool.width scope)
    (hrule : (call bus (targets.flatMap pool.group) (sources.flatMap pool.group)).Rule scope') :
    (call bus targets sources).Acceptable scope := by
  obtain ⟨hw, declared', hfind', haddress, hdata⟩ := hrule
  obtain ⟨declared, hfind⟩ := Option.isSome_iff_exists.1
    (hfound bus (Option.isSome_iff_exists.2 ⟨declared', hfind'⟩))
  obtain ⟨declared'', hfind'', haddress', hdata'⟩ := hscope.bus hfind
  rw [hfind'] at hfind''
  cases hfind''
  rw [hscope.registers_eq, haddress'] at haddress
  rw [hscope.registers_eq, hdata'] at hdata
  have hknows : ∀ id ∈ sources ++ targets, scope.registers.Knows id := knows_of_known hknown
  have hlines : ∀ id ∈ declared.lines, scope.registers.Knows id := fun id hid =>
    .of_declares (hscope.lines declared (List.mem_of_find?_eq_some hfind) id hid)
  have htargets : ∀ id ∈ targets, scope.registers.Knows id :=
    fun id hid => hknows id (List.mem_append_right _ hid)
  refine ⟨0, validate_ok_iff.2 ⟨hknown, ⟨fun id hid => ?_, ?_⟩, declared, hfind, ?_⟩⟩
  · obtain ⟨limb, hlimb⟩ := hscope.splits.exists_limb (htargets id hid)
    have hnot := hw.notInput limb (List.mem_flatMap.2 ⟨id, hid, hlimb⟩)
    rwa [hscope.registers_eq, hscope.splits.isInput_group (htargets id hid) limb hlimb] at hnot
  · exact hscope.splits.nodup_of_lines htargets hw.nodup
  · by_cases hwide : ∃ id ∈ sources ++ targets ++ declared.lines, pool.width <
      scope.registers.widthOf id
    · exact hcandid.lines bus targets sources declared rfl hfind hwide
    · have hsame : ∀ ids ⊆ sources ++ targets ++ declared.lines,
          pool.registers.widths (ids.flatMap pool.group) = scope.registers.widths ids := by
        refine fun ids hsub => hscope.splits.widths_lines_of_le (fun id hid => ?_) fun id hid => ?_
        · rcases List.mem_append.1 (hsub hid) with hid | hid
          · exact hknows id hid
          · exact hlines id hid
        · exact Nat.not_lt.1 fun hlt => hwide ⟨id, hsub hid, hlt⟩
      have hown : declared.lines ⊆ sources ++ targets ++ declared.lines :=
        List.subset_append_right _ _
      rw [hsame sources (by simp),
        hsame declared.address (List.Subset.trans (List.subset_append_left _ _) hown)] at haddress
      rw [hsame targets (by simp),
        hsame declared.data (List.Subset.trans (List.subset_append_right _ _) hown)] at hdata
      exact ⟨haddress, hdata⟩

/-- Registers whose limbs accepted fragments store are no inputs. -/
theorem notInput_of_stored {reads ids : List RegId} (hscope : scope.SplitTo pool scope')
    (hstraight : Straight reads (ids.flatMap pool.group) (Fragment.codes fragments))
    (hknown : ∀ id ∈ ids, scope.registers.declares id = true)
    (hrule : ∀ fragment ∈ fragments, fragment.code.Rule scope') :
    ∀ id ∈ ids, scope.registers.isInput id = false := by
  intro id hid
  have hknows : scope.registers.Knows id := .of_declares (hknown id hid)
  obtain ⟨limb, hlimb⟩ := hscope.splits.exists_limb hknows
  have hstored := hstraight.stored.subset (List.mem_flatMap.2 ⟨id, hid, hlimb⟩)
  obtain ⟨stored, hmem, hwrite⟩ := List.mem_flatMap.1 hstored
  obtain ⟨fragment, hfragment, rfl⟩ := List.mem_map.1 hmem
  have hnot := notInput_of_rule (hrule fragment hfragment) hwrite
  rwa [hscope.registers_eq, hscope.splits.isInput_group hknows limb hlimb] at hnot

theorem splitPolynomial_used {rs : RegisterFile} {site : Site} {targets : List RegId}
    {rhs : Polynomial} {codes : List Microcode}
    (h : splitPolynomial site targets rhs early = .ok codes later) (hs : early.Splits rs) :
    ∀ id ∈ targets, id.isUsed = true := by
  obtain ⟨layout, terms, hlayout, -, -⟩ := splitPolynomial_ok h
  exact hs.used_of_layout hlayout

theorem lower_acceptable (h : lower ⟨code, scope.registers⟩ offset early = .ok fragments later)
    (hlocal : code.isLocal = true) (hwide : code.Wide early.width scope.registers)
    (hs : early.Splits scope.registers) (hext : later.Extends pool)
    (hscope : scope.SplitTo pool scope')
    (hknown : ∀ id ∈ code.reads ++ code.writes, scope.registers.declares id = true)
    (hsize : ∀ id, scope.registers.widthOf id < Word.modulus)
    (hmeasured : code.Measured scope.registers) (hcandid : code.Candid early.width scope)
    (hnd : code.writes.Nodup) (hrule : ∀ fragment ∈ fragments, fragment.code.Rule scope') :
    code.Acceptable scope := by
  have hgrow : early.Extends pool := ((keeps_lower code offset).of_ok h).toExtends.trans hext
  have hsized := hmeasured.sized
  have hidle := hcandid.idle hwide
  have hstraight := lower_straight h hs hsize hsized hidle hwide.isTerminal
  rw [hgrow.group_eq] at hstraight
  have hnot :=
    notInput_of_stored hscope hstraight (fun id hid => hknown id (List.mem_append_right _ hid))
    hrule
  have hwritable : ∀ {bandwidth : Nat}, (∀ id ∈ code.targets, id.isUsed = true) →
      (scope.withBandwidth bandwidth).Writable code.targets := by
    intro bandwidth hused
    have hwrites : code.writes = code.targets := List.filter_eq_self.2 hused
    exact ⟨hwrites ▸ hnot, hwrites ▸ hnd⟩
  cases lower_ok h with
  | @sum _ p _ _ hp h =>
    have hroom := hsized.targets_lt hp
    have hweighed := hmeasured.weighed
    rw [hp] at hweighed
    have hmax := splitPolynomial_max_lt h hs hsize hroom hweighed (hidle.maxValue_eq hp)
    rw [← bitLength_le_iff, ← RegisterFile.totalWidth_eq hroom] at hmax
    exact ⟨p.width scope.registers, validate_ok_iff.2 ⟨hknown, (rule_sum_iff hp).2
      ⟨hwritable (splitPolynomial_used h hs), hmax, Nat.le_refl _⟩⟩⟩
  | @difference targets _ constant _ _ h =>
    obtain ⟨minuend, subtrahends, pivot, rfl, hpivot, hborrow⟩ :=
      splitSubtraction_borrow_le h hs hsize hsized
    refine ⟨bitLength (scope.registers.maxOf minuend +
      borrowsFor (constant + (subtrahends.map scope.registers.maxOf).sum)
        (scope.registers.widthOf minuend) <<< scope.registers.widthOf minuend),
      validate_ok_iff.2 ⟨hknown, hwritable (splitSubtraction_used h hs).2, minuend, subtrahends,
        pivot, rfl, hpivot, ?_, Nat.le_refl _⟩⟩
    have hhigh := hsized (targets.drop pivot) (by simp [packedLists, hpivot])
    exact hborrow.trans_eq (RegisterFile.totalWidth_eq hhigh).symm
  | @copy targets source width _ _ h =>
    obtain ⟨limbs, layout, codes, -, hlayout, -⟩ := splitCast_ok h
    have hroom := hsized targets List.mem_cons_self
    have hsource := hcandid.kept targets source width rfl hwide
    refine ⟨width, validate_ok_iff.2 ⟨hknown, hwritable (hs.used_of_layout hlayout),
      hsource, ?_, Nat.le_refl _⟩⟩
    exact (splitCast_width_le h hs hsize hroom hsource hidle).trans_eq
      (RegisterFile.totalWidth_eq hroom).symm
  | @comparison _ left _ _ _ _ _ hcompares h =>
    obtain ⟨hleft, hright⟩ := hcompares.sides_lt (hcompares.runnable hsized) hsize
    have hiff : code.Rule (scope.withBandwidth (scope.registers.widths left).sum) ↔ _ :=
      hcompares.rule_iff hsized
    refine ⟨(scope.registers.widths left).sum, validate_ok_iff.2
      ⟨hknown, hiff.2 ⟨⟨fun ids hids => ?_, fun hnone => ?_⟩, Nat.le_refl _⟩⟩⟩
    · exact splitComparison_sum_eq (hids ▸ h) hs hleft (hright ids hids)
    · have hpre : early.registers <+: scope'.registers := hscope.registers_eq ▸ hgrow.registers
      refine splitComparison_constant_lt (hnone ▸ h) hs hleft ?_ hpre hrule
      exact hcompares.left_ne_nil hwide hnone
  | renamed hsingle hlocal => exact absurd hwide ((single_iff hs hknown).1 hsingle)
  | lines htargets hsources => cases hlocal

end Microcode

/-! ## Expansions -/

namespace Microcode.ExpandsTo

variable {scope scope' : Scope} {code : Microcode} {rs : RegisterFile} {offset : Nat} {pool : Pool}
  {fragments : List Fragment}

theorem splits (h : code.ExpandsTo rs pool offset fragments) : pool.Splits rs := by
  obtain ⟨early, later, hexpand, hs, hext⟩ := h
  exact hs.mono ((expand_grows hexpand).trans hext)

theorem known (h : code.ExpandsTo rs pool offset fragments) :
    ∀ id ∈ code.reads ++ code.writes, rs.declares id = true := by
  obtain ⟨early, later, hexpand, hs, -⟩ := h
  exact (expand_cases hexpand hs).1

theorem straight (h : code.ExpandsTo rs pool offset fragments)
    (hsize : ∀ id, rs.widthOf id < Word.modulus) (hsized : code.Sized rs)
    (hidle : code.Wide pool.width rs → code.Idle rs) (hterm : code.isTerminal = false) :
    Straight ((code.visible pool.width rs).flatMap pool.group) (code.writes.flatMap pool.group)
      (Fragment.codes fragments) := by
  obtain ⟨early, later, hexpand, hs, hext⟩ := h
  have hgrow := (expand_grows hexpand).trans hext
  rw [hgrow.width_eq] at hidle ⊢
  rw [← hgrow.group_eq, visible]
  rcases (expand_cases hexpand hs).2 with ⟨hnarrow, -, hsingle, rfl⟩ | ⟨hwide, hlower⟩
  · rw [if_neg hnarrow]
    exact rename_straight hsingle hs hterm
  · rw [if_pos hwide]
    exact lower_straight hlower hs hsize hsized (hidle hwide) hterm

/-- Every fragment of a comparison goes where the comparison goes. -/
theorem branch {distance : Nat} (h : code.ExpandsTo rs pool offset fragments)
    (hskip : code.skipDistance = some distance) :
    ∀ fragment ∈ fragments, fragment.branch = some (.offset (landing offset distance)) ∧
      fragment.code.skipDistance.isSome = true := by
  obtain ⟨early, later, hexpand, hs, -⟩ := h
  rcases (expand_cases hexpand hs).2 with ⟨-, -, -, rfl⟩ | ⟨-, hlower⟩
  · intro fragment hmem
    rw [List.mem_singleton.1 hmem, rename]
    exact ⟨by rw [hskip]; rfl, by rw [skipDistance_mapRegs, hskip]; rfl⟩
  · obtain ⟨left, right, constant, hcompares⟩ := exists_compares hskip
    rw [hcompares.lower_eq] at hlower
    exact splitComparison_branch hlower

/-- Only a cast that leaves out a limb needs the failure at the end of the instruction. -/
theorem drops (h : code.ExpandsTo rs pool offset fragments)
    (hsize : ∀ id, rs.widthOf id < Word.modulus) {fragment : Fragment}
    (hmem : fragment ∈ fragments) (hbranch : fragment.branch = some .trailer) :
    code.Drops pool.width rs := by
  obtain ⟨early, later, hexpand, hs, hext⟩ := h
  rw [((expand_grows hexpand).trans hext).width_eq]
  have hplain : ∀ {codes : List Microcode}, fragment ∉ codes.map Fragment.plain := by
    intro codes hmem
    obtain ⟨code', -, rfl⟩ := List.mem_map.1 hmem
    cases hbranch
  have hrename : fragment ≠ code.rename offset early := by
    rintro rfl
    obtain ⟨distance, -, hoffset⟩ := Option.map_eq_some_iff.1 hbranch
    cases hoffset
  rcases (expand_cases hexpand hs).2 with ⟨-, -, -, rfl⟩ | ⟨hwide, hlower⟩
  · exact absurd (List.mem_singleton.1 hmem) hrename
  · cases lower_ok hlower with
    | sum hp h => exact absurd hmem hplain
    | difference h => exact absurd hmem hplain
    | copy h =>
      refine ⟨hwide, ?_⟩
      obtain ⟨limbs, layout, codes, hlimbs, -, -, rfl⟩ := splitCast_ok h
      rcases List.mem_append.1 hmem with hguard | hcode
      · obtain ⟨piece, hpiece, -⟩ := List.mem_map.1 hguard
        obtain ⟨hpiece, hkept⟩ := List.mem_filter.1 hpiece
        obtain ⟨limb, hlimb, rfl⟩ := List.mem_map.1 hpiece
        obtain ⟨hlimb, hpos⟩ := List.mem_filter.1 hlimb
        obtain ⟨i, hget⟩ := List.mem_iff_getElem?.1 hlimb
        have hlaid := hs.laidOut (by simpa using hsize _) hlimbs
        obtain ⟨hoffset, hwidth⟩ := hlaid.offset_eq hs hget
        simp only [decide_eq_true_eq] at hpos hkept
        exact ⟨i, by omega, by omega⟩
      · exact absurd hcode hplain
    | comparison hcompares h =>
      have hoffset := (splitComparison_branch h fragment hmem).1
      rw [hbranch] at hoffset
      cases hoffset
    | renamed hsingle hlocal => exact absurd (List.mem_singleton.1 hmem) hrename
    | lines htargets hsources =>
      rw [List.mem_singleton.1 hmem] at hbranch
      cases hbranch

/-- Only a sum that is stored nowhere leaves no fragment. -/
theorem vanishes (h : code.ExpandsTo rs pool offset [])
    (hsize : ∀ id, rs.widthOf id < Word.modulus) (hsized : code.Sized rs)
    (hidle : code.Wide pool.width rs → code.Idle rs) : code.Vanishes pool.width rs := by
  have hs := h.splits
  obtain ⟨early, later, hexpand, hearly, hext⟩ := id h
  have hgrow := (expand_grows hexpand).trans hext
  rcases (expand_cases hexpand hearly).2 with ⟨-, -, -, hnil⟩ | ⟨hwide, hlower⟩
  · cases hnil
  rw [← hgrow.width_eq] at hwide
  have hstraight := h.straight hsize hsized hidle hwide.isTerminal
  have hwrites : code.writes = [] := by
    refine List.eq_nil_iff_forall_not_mem.2 fun id hid => ?_
    have hknows : rs.Knows id := .of_declares (h.known id (List.mem_append_right _ hid))
    obtain ⟨limb, hlimb⟩ := hs.exists_limb hknows
    cases hstraight.stored.subset (List.mem_flatMap.2 ⟨id, hid, hlimb⟩)
  -- all but a sum reads the limbs of its wide registers
  have hsum : code.polynomial?.isSome = true := by
    by_contra hnone
    rw [Option.not_isSome_iff_eq_none] at hnone
    obtain ⟨id, hid, hlt⟩ := id hwide
    rw [hwrites, List.append_nil] at hid
    have hdeclared := h.known id (List.mem_append_left _ hid)
    obtain ⟨limb, hlimb⟩ := hs.exists_limb (.of_declares hdeclared)
    have hvisible : id ∈ code.visible pool.width rs := by
      rw [visible, if_pos hwide, live, hnone]
      exact List.mem_filter.2 ⟨(List.mem_filter.1 hid).1,
        decide_eq_true (Nat.zero_lt_of_lt hlt)⟩
    have hlimbUsed := RegisterFile.isUsed_of_declares (hs.declares_group hdeclared limb hlimb)
    cases hstraight.read limb (List.mem_flatMap.2 ⟨id, hvisible, hlimb⟩) hlimbUsed
  refine ⟨hwide, ?_, hsum⟩
  obtain ⟨p, hp⟩ := Option.isSome_iff_exists.1 hsum
  rw [lower_sum_eq hp] at hlower
  obtain ⟨codes, mid, hcodes, -⟩ := estate_bind_ok.1 hlower
  exact (List.filter_eq_self.2 (splitPolynomial_used hcodes hearly)).symm.trans hwrites

/-- What a fragment writes belongs to a register that is written, or to none. -/
theorem mem_writes (h : code.ExpandsTo scope.registers pool offset fragments)
    (hvalid : code.validate scope = .ok ()) (hmeasured : code.Measured scope.registers)
    (hsize : ∀ id, scope.registers.widthOf id < Word.modulus) {id limb : RegId}
    (hid : scope.registers.declares id = true) (hlimb : limb ∈ pool.group id)
    (hwrite : limb ∈ allWrites (Fragment.codes fragments)) : id ∈ code.writes := by
  have hs := h.splits
  have hknown := h.known
  obtain ⟨early, later, hexpand, hearly, hext⟩ := h
  have hgrow := (expand_grows hexpand).trans hext
  have hunfolds := expand_unfolds hexpand rfl hvalid hmeasured.sized hmeasured.compact hearly hsize
  rw [← hgrow.group_eq] at hlimb
  rcases hunfolds.only limb hwrite with hmem | hnew
  · obtain ⟨id', hid', hlimb'⟩ := List.mem_flatMap.1 hmem
    by_contra hnot
    have hne : id ≠ id' := fun heq => hnot (heq ▸ hid')
    exact hearly.disjoint_group (.of_declares hid)
      (.of_declares (hknown id' (List.mem_append_right _ hid'))) hne hlimb hlimb'
  · rw [hearly.declares_group hid limb hlimb] at hnew
    cases hnew

/-- A candid microcode is acceptable where its fragments are accepted. -/
theorem acceptable (h : code.ExpandsTo scope.registers pool offset fragments)
    (hscope : scope.SplitTo pool scope')
    (hfound : ∀ number, (scope'.buses.find? fun b => b.id == some number).isSome = true →
      (scope.buses.find? fun b => b.id == some number).isSome = true)
    (hsize : ∀ id, scope.registers.widthOf id < Word.modulus)
    (hmeasured : code.Measured scope.registers) (hcandid : code.Candid pool.width scope)
    (hnd : code.Wide pool.width scope.registers → code.writes.Nodup)
    (hrule : ∀ fragment ∈ fragments, fragment.code.Rule scope') : code.Acceptable scope := by
  obtain ⟨early, later, hexpand, hs, hext⟩ := h
  have hgrow : early.Extends pool := (expand_grows hexpand).trans hext
  obtain ⟨hknown, hcases⟩ := expand_cases hexpand hs
  cases hlocal : code.isLocal with
  | false =>
    obtain ⟨bus, targets, sources, rfl⟩ :
        ∃ bus targets sources, code = call bus targets sources := by
      cases code with
      | call bus targets sources => exact ⟨bus, targets, sources, rfl⟩
      | _ => cases hlocal
    obtain ⟨-, rfl⟩ := expand_call hexpand
    have hcall := hrule _ List.mem_cons_self
    rw [hgrow.group_eq] at hcall
    exact acceptable_of_lines hscope hfound hknown hcandid hcall
  | true =>
    rcases hcases with ⟨-, -, hsingle, rfl⟩ | ⟨hwide, hlower⟩
    · have hrenamed := hrule _ List.mem_cons_self
      rw [rename, hgrow.firstLimb_eq] at hrenamed
      exact acceptable_of_rename hscope hlocal hknown (hgrow.single hsingle) hrenamed
    · rw [hgrow.width_eq] at hcandid hnd
      exact lower_acceptable hlower hlocal hwide hs hext hscope hknown hsize hmeasured hcandid
        (hnd hwide) hrule

end Microcode.ExpandsTo

end LimbMachine
