import LimbMachine.Proofs.Split.Lowered
import LimbMachine.Proofs.Split.Routine

/-!
# What a microcode unfolds into

The fragments of an accepted microcode are acceptable themselves, read limbs of what it reads, write
the limbs of what it writes once each, and branch where it branches or to the failure at the end of
the instruction (`Microcode.Unfolds`, `Microcode.expand_unfolds`).
-/

namespace LimbMachine

open Microcode (allWrites Ordered)

/-! ## Definitions -/

namespace Microcode

/-- Nothing is left out but the right side of a comparison or the witness of a division. -/
def Complete : Microcode → Prop
  | div quotient remainder _ dividend divisor =>
    ∀ id ∈ [quotient, remainder, dividend, divisor], id.isUsed = true
  | skip left _ _ _ => left.isUsed = true
  | code => ∀ id ∈ code.operands ++ code.targets, id.isUsed = true

instance (code : Microcode) : Decidable code.Complete := by
  unfold Complete
  split
  all_goals infer_instance

/-- The targets of a subtraction are sized together, and not only those below and above its
pivot. -/
def Compact (rs : RegisterFile) : Microcode → Prop
  | sub targets _ _ => (rs.widths targets).sum < Word.modulus
  | _ => True

instance (rs : RegisterFile) (code : Microcode) : Decidable (code.Compact rs) := by
  unfold Compact
  split
  all_goals infer_instance

/-- A microcode that can be checked and split: it is accepted, nothing it needs is left out, and no
total of widths runs past the largest size. -/
structure Legal (scope : Scope) (code : Microcode) : Prop where
  valid : code.validate scope = .ok ()
  complete : code.Complete
  sized : code.Sized scope.registers
  compact : code.Compact scope.registers

end Microcode

/-- What split microcodes are checked against: the limbs in the pool, the same number of
instructions, and buses whose lines are replaced by their limbs. -/
structure Scope.SplitTo (scope : Scope) (pool : Pool) (scope' : Scope) : Prop where
  splits : pool.Splits scope.registers
  registers_eq : scope'.registers = pool.registers
  instructions_eq : scope'.instructions = scope.instructions
  lines : ∀ bus ∈ scope.buses, ∀ line ∈ bus.lines, scope.registers.declares line = true
  bus : ∀ {number : Nat} {declared : Bus},
    (scope.buses.find? fun b => b.id == some number) = some declared →
      ∃ declared', (scope'.buses.find? fun b => b.id == some number) = some declared' ∧
        declared'.address = declared.address.flatMap pool.group ∧
        declared'.data = declared.data.flatMap pool.group

/-- The microcodes of fragments. -/
abbrev Fragment.codes (fragments : List Fragment) : List Microcode := fragments.map Fragment.code

/-- Fragments go on to the next one, but for comparisons: these may branch to the failure at the end
or where the microcode branches, and then nothing is written among them. -/
structure Fragment.Branches (code : Microcode) (offset : Nat) (fragments : List Fragment) :
    Prop where
  branch : ∀ fragment ∈ fragments, ∀ b, fragment.branch = some b →
    fragment.code.skipDistance.isSome = true ∧
      (b = .trailer ∨ ∃ distance, code.skipDistance = some distance ∧
        b = .offset (Microcode.landing offset distance))
  plain : ∀ fragment ∈ fragments, fragment.branch = none → fragment.code.skipDistance = none
  quiet : code.skipDistance.isSome = true → ∀ fragment ∈ fragments, fragment.code.targets = []
  last : code.isTerminal = true →
    ∃ code', fragments = [Fragment.plain code'] ∧ code'.isTerminal = true

/-- What the fragments of the microcode at `offset` are like, emitted while the pool grew from
`early` to `later`. -/
structure Microcode.Unfolds (scope : Scope) (code : Microcode) (offset : Nat) (early later : Pool)
    (fragments : List Fragment) : Prop where
  grows : early.Extends later
  branches : Fragment.Branches code offset fragments
  ordered : Ordered (code.reads.flatMap early.group) (Fragment.codes fragments)
  declared : ∀ id ∈ allWrites (Fragment.codes fragments), later.registers.declares id = true
  nodup : (allWrites (Fragment.codes fragments)).Nodup
  all : code.writes.flatMap early.group ⊆ allWrites (Fragment.codes fragments)
  only : ∀ id ∈ allWrites (Fragment.codes fragments),
    id ∈ code.writes.flatMap early.group ∨ early.registers.declares id = false
  acceptable : ∀ {pool : Pool} {scope' : Scope}, later.Extends pool →
  scope.SplitTo pool scope' →
    ∀ fragment ∈ fragments, fragment.code.Acceptable scope'

/-! ## Comparisons -/

namespace Microcode

variable {code : Microcode} {rs later : RegisterFile} {scope : Scope}

theorem targets_of_skipDistance (h : code.skipDistance.isSome = true) : code.targets = [] := by
  cases code with
  | skip left right constant distance => rfl
  | skipIf left right constant distance => rfl
  | _ => cases h

theorem allWrites_eq_nil {codes : List Microcode} (h : ∀ code ∈ codes, code.targets = []) :
    allWrites codes = [] := by
  refine List.flatMap_eq_nil_iff.2 fun code hcode => ?_
  rw [writes, h code hcode]
  rfl

theorem Ordered.of_reads {known : List RegId} {codes : List Microcode}
    (h : ∀ code ∈ codes, code.reads ⊆ known) : Ordered known codes := by
  induction codes generalizing known with
  | nil => trivial
  | cons code codes ih =>
    refine ⟨h code List.mem_cons_self, ih fun code' hcode' => ?_⟩
    exact List.subset_append_of_subset_left _ (h code' (List.mem_cons_of_mem _ hcode'))

/-- Both sides of a comparison are equally wide, or its constant fits. -/
def Even (rs : RegisterFile) : Microcode → Prop
  | skip left right constant _ =>
    if right.isUsed then rs.widthOf left = rs.widthOf right else constant < 2 ^ rs.widthOf left
  | skipIf left right _ _ => right ≠ [] ∧ (rs.widths left).sum = (rs.widths right).sum
  | _ => False

/-- A comparison that passes the checks but for the bandwidth of a field. -/
structure Fair (rs : RegisterFile) (code : Microcode) : Prop where
  declared : ∀ id ∈ code.operands, rs.Knows id
  even : code.Even rs

theorem Fair.skipDistance (h : code.Fair rs) : code.skipDistance.isSome = true := by
  have heven := h.even
  cases code with
  | skip left right constant distance => rfl
  | skipIf left right constant distance => rfl
  | _ => exact heven.elim

theorem Fair.mono (h : code.Fair rs) (hpre : rs <+: later) : code.Fair later := by
  refine ⟨fun id hid => (h.declared id hid).mono hpre, ?_⟩
  have heven := h.even
  cases code with
  | skip left right constant distance =>
    rw [Even, (h.declared left List.mem_cons_self).widthOf_eq hpre,
      (h.declared right (List.mem_cons_of_mem _ List.mem_cons_self)).widthOf_eq hpre]
    exact heven
  | skipIf left right constant distance =>
    have hwidths : ∀ {ids : List RegId}, ids ⊆ left ++ right →
        later.widths ids = rs.widths ids :=
      fun hsub => List.map_congr_left fun id hid => (h.declared id (hsub hid)).widthOf_eq hpre
    rw [Even, hwidths (List.subset_append_left left right),
      hwidths (List.subset_append_right left right)]
    exact heven
  | _ => exact heven.elim

/-- A fair comparison is refused at most for the bandwidth of a field. -/
theorem Fair.acceptable (h : code.Fair scope.registers) : code.Acceptable scope := by
  have hwrites : code.writes = [] := by
    rw [writes, targets_of_skipDistance h.skipDistance]
    rfl
  have hknown : ∀ id ∈ code.reads ++ code.writes, scope.registers.declares id = true := by
    intro id hid
    rw [hwrites, List.append_nil] at hid
    obtain ⟨hid, hused⟩ := List.mem_filter.1 hid
    exact h.declared id hid hused
  have heven := h.even
  cases code with
  | skip left right constant distance =>
    exact ⟨scope.registers.widthOf left, validate_ok_iff.2 ⟨hknown, heven, Nat.le_refl _⟩⟩
  | skipIf left right constant distance =>
    refine ⟨scope.registers.totalWidth left, validate_ok_iff.2 ⟨hknown, ?_, Nat.le_refl _⟩⟩
    rw [if_pos heven.1]
    exact congrArg (· % Word.modulus) heven.2
  | _ => exact heven.elim

end Microcode

/-- The fragment is a fair comparison of some of `reads` and branches to `b`. -/
structure Fragment.Tests (rs : RegisterFile) (reads : List RegId) (b : Branch)
    (fragment : Fragment) : Prop where
  branch_eq : fragment.branch = some b
  fair : fragment.code.Fair rs
  reads_subset : fragment.code.reads ⊆ reads

theorem Fragment.Tests.acceptable {scope scope' : Scope} {early pool : Pool} {reads : List RegId}
    {b : Branch} {fragment : Fragment} (h : fragment.Tests early.registers reads b)
    (hext : early.Extends pool) (hscope : scope.SplitTo pool scope') :
    fragment.code.Acceptable scope' := by
  refine Microcode.Fair.acceptable ?_
  rw [hscope.registers_eq]
  exact h.fair.mono hext.registers

theorem Fragment.allWrites_tests {rs : RegisterFile} {reads : List RegId} {b : Branch}
    {fragments : List Fragment} (h : ∀ fragment ∈ fragments, fragment.Tests rs reads b) :
    allWrites (codes fragments) = [] := by
  refine Microcode.allWrites_eq_nil fun code hcode => ?_
  obtain ⟨fragment, hmem, rfl⟩ := List.mem_map.1 hcode
  exact Microcode.targets_of_skipDistance (h fragment hmem).fair.skipDistance

/-- Comparisons that all branch where the microcode does. -/
theorem Microcode.unfolds_tests {scope : Scope} {code : Microcode} {offset distance : Nat}
    {early : Pool} {fragments : List Fragment} (hskip : code.skipDistance = some distance)
    (h : ∀ fragment ∈ fragments, fragment.Tests early.registers (code.reads.flatMap early.group)
      (.offset (landing offset distance))) :
    code.Unfolds scope offset early early fragments := by
  have hsome : code.skipDistance.isSome = true := by rw [hskip]; rfl
  have hwrites := Fragment.allWrites_tests h
  have htargets : code.writes = [] := by
    rw [writes, targets_of_skipDistance hsome]
    rfl
  refine ⟨.refl early, ⟨?_, ?_, ?_, ?_⟩, ?_, ?_, ?_, ?_, ?_, ?_⟩
  · intro fragment hmem b hb
    rw [(h fragment hmem).branch_eq] at hb
    cases hb
    exact ⟨(h fragment hmem).fair.skipDistance, .inr ⟨distance, hskip, rfl⟩⟩
  · intro fragment hmem hnone
    rw [(h fragment hmem).branch_eq] at hnone
    cases hnone
  · intro _ fragment hmem
    exact targets_of_skipDistance (h fragment hmem).fair.skipDistance
  · intro hterm
    rw [isTerminal_of_skipDistance hsome] at hterm
    cases hterm
  · refine .of_reads fun code' hcode' => ?_
    obtain ⟨fragment, hmem, rfl⟩ := List.mem_map.1 hcode'
    exact (h fragment hmem).reads_subset
  · rw [hwrites]
    simp
  · rw [hwrites]
    exact .nil
  · rw [htargets]
    exact List.nil_subset _
  · rw [hwrites]
    simp
  · intro pool scope' hext hscope fragment hmem
    exact (h fragment hmem).acceptable hext hscope

/-! ## Comparisons limb by limb -/

/-- A value that fits limbs side by side is cut into parts that fit them one by one. -/
theorem Limb.Contiguous.cutAt_lt {rs : RegisterFile} {offset value : Nat} {limbs : List Limb}
    (h : Limb.Contiguous rs offset limbs)
    (hvalue : value < 2 ^ (offset + (limbs.map Limb.width).sum)) :
    ∀ pair ∈ limbs.zip (Limb.cutAt value limbs), pair.2 < 2 ^ pair.1.width := by
  induction limbs generalizing offset with
  | nil => simp
  | cons limb limbs ih =>
    obtain ⟨hoffset, hwidth, hrest⟩ := h
    rw [List.map_cons, List.sum_cons] at hvalue
    cases limbs with
    | nil =>
      intro pair hpair
      obtain rfl := List.mem_singleton.1 hpair
      show value >>> limb.offset < 2 ^ limb.width
      rw [Nat.shiftRight_eq_div_pow, hoffset]
      refine Nat.div_lt_of_lt_mul ?_
      rwa [List.map_nil, List.sum_nil, Nat.add_zero, Nat.pow_add] at hvalue
    | cons limb' limbs =>
      intro pair hpair
      rcases List.mem_cons.1 hpair with rfl | hpair
      · exact bitSlice_lt value limb.offset limb.width
      · rw [← Nat.add_assoc] at hvalue
        exact ih hrest hvalue pair hpair

section LimbByLimb

variable {pool : Pool} {rs : RegisterFile} {left right reads : List RegId}
    {limbs others : List Limb}
  {constant landing : Nat} {fragment : Fragment}

theorem Pool.LaidOut.reads_subset (h : pool.LaidOut left limbs)
    (hreads : left.flatMap pool.group ⊆ reads) : Limb.ids limbs ⊆ reads := by
  rw [Pool.flatten_eq_lines h.flatten_eq]
  exact hreads

/-- The comparison of a limb with a constant that fits is fair. -/
theorem Fragment.tests_compareConst {rs : RegisterFile} {id : RegId} {b : Branch}
    (hid : rs.declares id = true) (hconstant : constant < 2 ^ rs.widthOf id)
    (hread : id ∈ reads) : (Fragment.compareConst id constant b).Tests rs reads b := by
  have hoperands : ∀ id' ∈ (Fragment.compareConst id constant b).code.operands,
      id'.isUsed = true → id' = id := by
    intro id' hid' hused
    rcases List.mem_cons.1 hid' with rfl | hunused
    · rfl
    · rw [List.mem_singleton.1 hunused] at hused
      cases hused
  refine ⟨rfl, ⟨fun id' hid' hused => ?_, hconstant⟩, fun id' hid' => ?_⟩
  · rw [hoperands id' hid' hused]
    exact hid
  · obtain ⟨hid', hused⟩ := List.mem_filter.1 hid'
    rw [hoperands id' hid' hused]
    exact hread

/-- The comparisons of limbs with the parts of a constant that fits are fair. -/
theorem Fragment.tests_constant (hs : pool.Splits rs) (hl : pool.LaidOut left limbs)
    (hreads : left.flatMap pool.group ⊆ reads) (hconstant : constant < 2 ^ (rs.widths left).sum)
    (hmem : fragment ∈ (limbs.zip (Limb.cutAt constant limbs)).map fun pair =>
      Fragment.compareConst pair.1.id pair.2 (.offset landing)) :
    fragment.Tests pool.registers reads (.offset landing) := by
  obtain ⟨⟨limb, part⟩, hpair, rfl⟩ := List.mem_map.1 hmem
  have hlimb : limb ∈ limbs := (List.of_mem_zip hpair).1
  have hid := List.mem_map_of_mem (f := Limb.id) hlimb
  have hpart : part < 2 ^ limb.width := by
    rw [← hl.sum_width hs, ← Nat.zero_add (limbs.map Limb.width).sum] at hconstant
    exact hl.contiguous.cutAt_lt hconstant _ hpair
  rw [(hl.contiguous.bounds hlimb).2.2] at hpart
  exact Fragment.tests_compareConst (hl.declares hs _ hid) hpart (hl.reads_subset hreads hid)

/-- The comparison of a group is fair. -/
theorem Limb.Group.Comparable.fair {rs : RegisterFile} {group : Limb.Group}
    (h : group.Comparable rs) (hdecl : ∀ id ∈ group.1 ++ group.2, rs.declares id = true) :
    (Limb.compareGroup group).Fair rs := by
  rcases Limb.compareGroup_cases group with ⟨l, r, rfl, hcode⟩ | hcode
  · have hr := hdecl r (List.mem_cons_of_mem _ List.mem_cons_self)
    have hused : r.isUsed = true := RegisterFile.isUsed_of_declares hr
    have heven := h.even
    rw [hcode]
    refine ⟨fun id hid => .of_declares (hdecl id hid), ?_⟩
    show if r.isUsed then rs.widthOf l = rs.widthOf r else _
    rw [if_pos hused]
    simpa [RegisterFile.widths] using heven
  · rw [hcode]
    exact ⟨fun id hid => .of_declares (hdecl id hid), h.right_ne, h.even⟩

theorem Limb.operands_compareGroup (group : Limb.Group) :
    (Limb.compareGroup group).operands = group.1 ++ group.2 := by
  rcases Limb.compareGroup_cases group with ⟨l, r, rfl, hcode⟩ | hcode
  · rw [hcode]
    rfl
  · rw [hcode]
    rfl

/-- The comparisons of the groups of two equally wide operands are fair. -/
theorem Fragment.tests_groups (hs : pool.Splits rs) (hl : pool.LaidOut left limbs)
    (hr : pool.LaidOut right others) (hreads : (left ++ right).flatMap pool.group ⊆ reads)
    (hleft : (rs.widths left).sum < Word.modulus) (hright : (rs.widths right).sum < Word.modulus)
    (htotal : Limb.total limbs = Limb.total others)
    (hmem : fragment ∈ (Limb.groups limbs others).map fun group =>
      (⟨Limb.compareGroup group, some (.offset landing)⟩ : Fragment)) :
    fragment.Tests pool.registers reads (.offset landing) := by
  obtain ⟨group, hgroup, rfl⟩ := List.mem_map.1 hmem
  have hopen := hl.opens hs hr hleft hright htotal
  obtain ⟨hcomparable, hsubl, hsubr⟩ := hopen.groups_comparable group hgroup
  have hwide : ∀ limbs : List Limb, Limb.ids (Limb.wide limbs) ⊆ Limb.ids limbs :=
    fun limbs => List.map_subset _ List.filter_sublist.subset
  have hsub : group.1 ++ group.2 ⊆ Limb.ids limbs ++ Limb.ids others :=
    List.append_subset.2
      ⟨List.subset_append_of_subset_left _ (List.Subset.trans hsubl (hwide limbs)),
      List.subset_append_of_subset_right _ (List.Subset.trans hsubr (hwide others))⟩
  rw [List.flatMap_append, List.append_subset] at hreads
  refine ⟨rfl, hcomparable.fair fun id hid => ?_, fun id hid => ?_⟩
  · rcases List.mem_append.1 (hsub hid) with hid | hid
    · exact hl.declares hs id hid
    · exact hr.declares hs id hid
  · rw [Microcode.reads, Limb.operands_compareGroup] at hid
    rcases List.mem_append.1 (hsub (List.mem_filter.1 hid).1) with hid | hid
    · exact hl.reads_subset hreads.1 hid
    · exact hr.reads_subset hreads.2 hid

/-- A split comparison is fair and allocates nothing. -/
theorem splitComparison_tests {site : Site} {right : Option (List RegId)} {early later : Pool}
    {fragments : List Fragment}
    (h : splitComparison site left right constant landing early = .ok fragments later)
    (hs : early.Splits rs) (hleft : (rs.widths left).sum < Word.modulus)
    (hright : ∀ ids, right = some ids → (rs.widths ids).sum < Word.modulus)
    (hconstant : right = none → constant < 2 ^ (rs.widths left).sum)
    (hreads : (left ++ right.getD []).flatMap early.group ⊆ reads) :
    early = later ∧
      ∀ fragment ∈ fragments, fragment.Tests early.registers reads (.offset landing) := by
  obtain ⟨rfl, limbs, hlayout, hcase⟩ := splitComparison_ok h
  have hl := hs.laidOut hleft hlayout
  refine ⟨rfl, fun fragment hmem => ?_⟩
  rcases hcase with ⟨rfl, rfl⟩ | ⟨ids, others, rfl, hothers, htotal, rfl⟩
  · rw [Option.getD_none, List.append_nil] at hreads
    exact Fragment.tests_constant hs hl hreads (hconstant rfl) hmem
  · have hr := hs.laidOut (hright ids rfl) hothers
    exact Fragment.tests_groups hs hl hr hreads hleft (hright ids rfl) htotal hmem

end LimbByLimb

/-! ## Straight code -/

section Straight

variable {scope : Scope} {code : Microcode} {offset : Nat} {early later : Pool}
  {codes : List Microcode}

theorem Microcode.Proper.skipDistance {rs : RegisterFile} (h : code.Proper rs) :
    code.skipDistance = none := by
  have hbalanced := h.balanced
  cases code with
  | assign targets rhs => rfl
  | sub targets sources constant => rfl
  | cast targets source width => rfl
  | _ => exact hbalanced.elim

/-- Straight code over the limbs of what a microcode reads and writes, behind guards that go to the
failure at the end. -/
theorem Pool.Emits.unfolds {reads targets : List RegId} (h : early.Emits later reads targets codes)
    {guards : List Fragment} (hskip : code.skipDistance = none) (hterm : code.isTerminal = false)
    (hreads : reads ⊆ code.reads.flatMap early.group)
    (htargets : targets = code.writes.flatMap early.group)
    (hguards : ∀ guard ∈ guards,
      guard.Tests early.registers (code.reads.flatMap early.group) .trailer) :
    code.Unfolds scope offset early later (guards ++ codes.map Fragment.plain) := by
  have hcodes : Fragment.codes (guards ++ codes.map Fragment.plain) =
      Fragment.codes guards ++ codes := by
    simp [Fragment.codes, Fragment.plain, Function.comp_def]
  have hguardWrites := Fragment.allWrites_tests hguards
  have hwrites : allWrites (Fragment.codes (guards ++ codes.map Fragment.plain)) =
      allWrites codes := by
    rw [hcodes, allWrites, List.flatMap_append, ← allWrites, hguardWrites, List.nil_append]
  subst htargets
  have hplain : ∀ fragment ∈ codes.map Fragment.plain, fragment.branch = none ∧
      fragment.code ∈ codes := by
    intro fragment hmem
    obtain ⟨code', hcode', rfl⟩ := List.mem_map.1 hmem
    exact ⟨rfl, hcode'⟩
  refine ⟨h.grows, ⟨?_, ?_, ?_, ?_⟩, ?_, ?_, ?_, ?_, ?_, ?_⟩
  · intro fragment hmem b hb
    rcases List.mem_append.1 hmem with hmem | hmem
    · rw [(hguards fragment hmem).branch_eq] at hb
      cases hb
      exact ⟨(hguards fragment hmem).fair.skipDistance, .inl rfl⟩
    · rw [(hplain fragment hmem).1] at hb
      cases hb
  · intro fragment hmem hnone
    rcases List.mem_append.1 hmem with hmem | hmem
    · rw [(hguards fragment hmem).branch_eq] at hnone
      cases hnone
    · exact (h.proper _ (hplain fragment hmem).2).skipDistance
  · intro hsome
    rw [hskip] at hsome
    cases hsome
  · intro hleaves
    rw [hterm] at hleaves
    cases hleaves
  · rw [hcodes]
    refine Ordered.append (.of_reads fun code' hcode' => ?_) ?_
    · obtain ⟨guard, hmem, rfl⟩ := List.mem_map.1 hcode'
      exact (hguards guard hmem).reads_subset
    · rw [hguardWrites, List.append_nil]
      exact h.ordered.mono hreads
  · rw [hwrites]
    exact h.declares
  · rw [hwrites]
    exact h.nodup
  · rw [hwrites]
    exact h.all
  · rw [hwrites]
    exact h.only
  · intro pool scope' hext hscope fragment hmem
    rcases List.mem_append.1 hmem with hmem | hmem
    · exact (hguards fragment hmem).acceptable (h.grows.trans hext) hscope
    · refine Microcode.Proper.acceptable ?_
      rw [hscope.registers_eq]
      exact (h.proper _ (hplain fragment hmem).2).mono hext.registers

end Straight

/-! ## Renamed microcodes -/

theorem Pool.Splits.declares_group {pool : Pool} {rs : RegisterFile} {id : RegId}
    (h : pool.Splits rs) (hid : rs.declares id = true) :
    ∀ limb ∈ pool.group id, pool.registers.declares limb = true := by
  obtain ⟨limbs, hlimbs⟩ := h.limbs_of_declares hid
  rw [group_eq hlimbs]
  exact (h.limbs_spec hlimbs).2

section Named

variable {pool : Pool} {rs : RegisterFile} {ids : List RegId}

/-- Nothing is left out where limbs were found. -/
theorem Pool.Splits.used_of_layout {limbs : List Limb} (h : pool.Splits rs)
    (hlayout : pool.layout ids = .ok limbs) : ∀ id ∈ ids, id.isUsed = true := by
  obtain ⟨limbIds, hflat, -⟩ := except_map_ok.1 hlayout
  exact fun id hid => RegisterFile.isUsed_of_declares (h.declares_of_flatten hflat id hid)

theorem Pool.Splits.used_of_products {found : List (List RegId × Nat)} (h : pool.Splits rs)
    (hfound : pool.products ids = .ok found) : ∀ id ∈ ids, id.isUsed = true := by
  induction ids generalizing found with
  | nil => simp
  | cons id ids ih =>
    unfold products at hfound
    obtain ⟨limbs, hlayout, hfound⟩ := except_bind_ok.1 hfound
    obtain ⟨inner, hinner, -⟩ := except_bind_ok.1 hfound
    exact List.forall_mem_cons.2 ⟨h.used_of_layout hlayout id List.mem_cons_self, ih hinner⟩

theorem Pool.Splits.used_of_terms {p : Polynomial} {ts : List Term} (h : pool.Splits rs)
    (hterms : pool.terms p = .ok ts) : ∀ id ∈ p.registers, id.isUsed = true := by
  intro id hid
  obtain ⟨m, hm, hvar⟩ := Polynomial.mem_registers.1 hid
  clear hid
  obtain ⟨ms⟩ := p
  induction ms generalizing ts with
  | nil => cases hm
  | cons first ms ih =>
    obtain ⟨found, rest, hfound, hrest, -⟩ := terms_cons.1 hterms
    rcases List.mem_cons.1 hm with rfl | hm
    · exact h.used_of_products hfound id hvar
    · exact ih hrest hm

theorem Pool.Splits.used_of_limbsOfEach {others : List Limb} (h : pool.Splits rs)
    (hothers : pool.limbsOfEach ids = .ok others) : ∀ id ∈ ids, id.isUsed = true := by
  induction ids generalizing others with
  | nil => simp
  | cons id ids ih =>
    obtain ⟨own, rest, hown, hrest, -⟩ := limbsOfEach_cons.1 hothers
    exact List.forall_mem_cons.2 ⟨h.used_of_layout hown id List.mem_cons_self, ih hrest⟩

theorem splitSubtraction_used {site : Site} {targets sources : List RegId} {constant : Nat}
    {early later : Pool} {codes : List Microcode}
    (h : splitSubtraction site targets sources constant early = .ok codes later)
    (hs : early.Splits site.registers) :
    (∀ id ∈ sources, id.isUsed = true) ∧ ∀ id ∈ targets, id.isUsed = true := by
  unfold splitSubtraction at h
  obtain ⟨⟨plan, aligned, stages⟩, mid, hask, -⟩ := estate_bind_ok.1 h
  obtain ⟨hplan, -⟩ := Pool.asking_ok.1 hask
  obtain ⟨minuend, subtrahends, pivot, rfl, hpivot⟩ := Pool.planSubtraction_pivot hplan
  obtain ⟨-, limbs, others, hparts⟩ := Pool.planSubtraction_parts hs hpivot hplan
  refine ⟨List.forall_mem_cons.2 ⟨hs.used_of_layout hparts.limbs_eq minuend List.mem_cons_self,
    hs.used_of_limbsOfEach hparts.others_eq⟩, ?_⟩
  rw [← List.take_append_drop pivot targets, List.forall_mem_append]
  exact ⟨hs.used_of_layout hparts.low_eq, hs.used_of_layout hparts.high_eq⟩

theorem splitComparison_used {site : Site} {left : List RegId} {right : Option (List RegId)}
    {constant landing : Nat} {early later : Pool} {fragments : List Fragment}
    (h : splitComparison site left right constant landing early = .ok fragments later)
    (hs : early.Splits rs) : ∀ id ∈ left ++ right.getD [], id.isUsed = true := by
  obtain ⟨-, limbs, hlimbs, ⟨rfl, -⟩ | ⟨ids, others, rfl, hothers, -⟩⟩ :=
    splitComparison_ok h
  · simpa using hs.used_of_layout hlimbs
  · exact List.forall_mem_append.2 ⟨hs.used_of_layout hlimbs, hs.used_of_layout hothers⟩

end Named

theorem Pool.Splits.isInput_group {pool : Pool} {rs : RegisterFile} {id : RegId}
    (h : pool.Splits rs) (hid : rs.Knows id) :
    ∀ limb ∈ pool.group id, pool.registers.isInput limb = rs.isInput id := by
  intro limb hlimb
  cases hu : id.isUsed with
  | false =>
    rw [RegId.eq_unused hu] at hlimb ⊢
    rw [List.mem_singleton.1 hlimb]
    rfl
  | true =>
    obtain ⟨limbs, hlimbs⟩ := h.limbs_of_declares (hid hu)
    rw [group_eq hlimbs] at hlimb
    exact h.isInput_limbs hlimbs limb hlimb

/-- What is left out stays left out limb by limb. -/
theorem Pool.Splits.filter_lines {pool : Pool} {rs : RegisterFile} {ids : List RegId}
    (h : pool.Splits rs) (hids : ∀ id ∈ ids, rs.Knows id) :
    (ids.flatMap pool.group).filter RegId.isUsed =
      (ids.filter RegId.isUsed).flatMap pool.group := by
  induction ids with
  | nil => rfl
  | cons id ids ih =>
    rw [List.forall_mem_cons] at hids
    rw [List.flatMap_cons, List.filter_append, ih hids.2]
    cases hu : id.isUsed with
    | false =>
      rw [List.filter_cons_of_neg (by simp [hu]), RegId.eq_unused hu]
      rfl
    | true =>
      have hall : (pool.group id).filter RegId.isUsed = pool.group id :=
        List.filter_eq_self.2 fun limb hlimb =>
          RegisterFile.isUsed_of_declares (h.declares_group (hids.1 hu) limb hlimb)
      rw [List.filter_cons_of_pos hu, List.flatMap_cons, hall]

/-- Lines of the same widths stay so limb by limb. -/
theorem Pool.Splits.widths_lines {pool : Pool} {rs : RegisterFile} {ids : List RegId}
    (h : pool.Splits rs) (hids : ∀ id ∈ ids, rs.Knows id) :
    pool.registers.widths (ids.flatMap pool.group) =
      (rs.widths ids).flatMap (limbWidths pool.width) := by
  induction ids with
  | nil => rfl
  | cons id ids ih =>
    rw [List.forall_mem_cons] at hids
    rw [List.flatMap_cons, RegisterFile.widths_append, h.widths_group hids.1, ih hids.2,
      RegisterFile.widths_cons, List.flatMap_cons]

/-- Renaming keeps targets apart and inputs out of them. -/
theorem Scope.writable_map_iff {scope scope' : Scope} {f : RegId → RegId} {targets : List RegId}
    (hren : scope.registers.Renames scope'.registers f targets)
    (hinput : ∀ id ∈ targets, scope'.registers.isInput (f id) = scope.registers.isInput id) :
    scope'.Writable (targets.map f) ↔ scope.Writable targets := by
  constructor
  · intro h
    refine ⟨fun id hid => ?_, h.nodup.of_map⟩
    rw [← hinput id hid]
    exact h.notInput _ (List.mem_map_of_mem hid)
  · intro h
    refine ⟨fun id' hid' => ?_, hren.nodup_map h.nodup⟩
    obtain ⟨id, hid, rfl⟩ := List.mem_map.1 hid'
    rw [hinput id hid]
    exact h.notInput id hid

theorem Scope.subRule_map_iff {scope scope' : Scope} {f : RegId → RegId}
    {targets subtrahends : List RegId} {minuend : RegId} {constant pivot : Nat}
    (ht : scope.registers.Renames scope'.registers f targets)
    (hs : scope.registers.Renames scope'.registers f (minuend :: subtrahends))
    (hfield : scope'.field.bandwidth = scope.field.bandwidth) :
    scope'.SubRule (targets.map f) (f minuend) (subtrahends.map f) constant pivot ↔
      scope.SubRule targets minuend subtrahends constant pivot := by
  have hmin := hs.widthOf_eq minuend List.mem_cons_self
  have hmax : (subtrahends.map f).map scope'.registers.maxOf =
      subtrahends.map scope.registers.maxOf := by
    rw [List.map_map]
    exact List.map_congr_left fun id hid => hs.maxOf_eq (List.mem_cons_of_mem _ hid)
  have hdrop : scope'.registers.totalWidth ((targets.map f).drop pivot) =
      scope.registers.totalWidth (targets.drop pivot) := by
    rw [← List.map_drop]
    exact congrArg Word.sum (ht.of_subset (List.drop_subset _ _)).widths_map
  have hmaxOf := hs.maxOf_eq List.mem_cons_self
  constructor
  · rintro ⟨hpivot, hborrow, hle⟩
    rw [ht.subPivot_map, hmin] at hpivot
    rw [hmax, hmin, hdrop] at hborrow
    rw [hmax, hmin, hmaxOf, hfield] at hle
    exact ⟨hpivot, hborrow, hle⟩
  · rintro ⟨hpivot, hborrow, hle⟩
    rw [← ht.subPivot_map, ← hmin] at hpivot
    rw [← hmax, ← hmin, ← hdrop] at hborrow
    rw [← hmax, ← hmin, ← hmaxOf, ← hfield] at hle
    exact ⟨hpivot, hborrow, hle⟩

namespace Microcode

variable {scope scope' : Scope} {code : Microcode} {f : RegId → RegId}

theorem mem_operands_mapRegs (h : f .unused = .unused) {code : Microcode} {id : RegId} :
    id ∈ (code.mapRegs f).operands ↔ id ∈ code.operands.map f := by
  have hg := guarded_eq h
  cases code with
  | assign targets rhs =>
    simp only [mapRegs, hg, operands, Polynomial.mem_registers, List.mem_map]
    constructor
    · rintro ⟨m, hm, hvar⟩
      obtain ⟨m₀, hm₀, rfl⟩ := List.mem_map.1 hm
      obtain ⟨id₀, hid₀, rfl⟩ := List.mem_map.1 hvar
      exact ⟨id₀, ⟨m₀, hm₀, hid₀⟩, rfl⟩
    · rintro ⟨id₀, ⟨m₀, hm₀, hid₀⟩, rfl⟩
      exact ⟨_, List.mem_map_of_mem hm₀, List.mem_map_of_mem hid₀⟩
  | _ => simp [mapRegs, operands, hg]

theorem isTerminal_mapRegs (f : RegId → RegId) (code : Microcode) :
    (code.mapRegs f).isTerminal = code.isTerminal := by
  cases code with
  | _ => rfl

theorem skipDistance_mapRegs (f : RegId → RegId) (code : Microcode) :
    (code.mapRegs f).skipDistance = code.skipDistance := by
  cases code with
  | _ => rfl

/-- A renamed microcode is under the same rule. -/
theorem rule_mapRegs_iff
    (h : scope.registers.Renames scope'.registers f (code.operands ++ code.targets))
    (hinput : ∀ id ∈ code.targets, scope'.registers.isInput (f id) = scope.registers.isInput id)
    (hcount : scope'.instructions = scope.instructions)
    (hfield : scope'.field.bandwidth = scope.field.bandwidth) (hlocal : code.isLocal = true) :
    (code.mapRegs f).Rule scope' ↔ code.Rule scope := by
  have hg := guarded_eq h.unused
  have htargets := h.of_subset (List.subset_append_right code.operands code.targets)
  have hoperands := h.of_subset (List.subset_append_left code.operands code.targets)
  have hwritable := Scope.writable_map_iff htargets hinput
  have htotal : ∀ {ids : List RegId}, scope.registers.Renames scope'.registers f ids →
      scope'.registers.totalWidth (ids.map f) = scope.registers.totalWidth ids :=
    fun hren => congrArg Word.sum hren.widths_map
  have hholds : ∀ {lhs rhs lhs' rhs' : Nat}, lhs' = lhs → rhs' = rhs →
      (scope'.Holds lhs' rhs' ↔ scope.Holds lhs rhs) := by
    rintro lhs rhs _ _ rfl rfl
    rw [Scope.Holds, Scope.Holds, hfield]
  -- the largest value of a sum or product stays the same
  have hsum : ∀ {p : Polynomial}, code.polynomial? = some p →
      ((code.mapRegs f).Rule scope' ↔ code.Rule scope) := by
    intro p hp
    have hp' := polynomial?_mapRegs h.unused code
    rw [hp, Option.map_some] at hp'
    rw [rule_sum_iff hp', rule_sum_iff hp, targets_mapRegs h.unused]
    exact and_congr hwritable
      (hholds (htotal htargets) (congrArg bitLength (maxValue_mapRegs h hp)))
  cases code with
  | assign targets rhs => exact hsum rfl
  | add targets sources constant => exact hsum rfl
  | mul targets sources constant => exact hsum rfl
  | sub targets sources constant =>
    simp only [mapRegs, hg]
    refine and_congr hwritable ?_
    cases sources with
    | nil => simp
    | cons minuend subtrahends =>
      simp only [List.map_cons, List.cons.injEq]
      constructor
      · rintro ⟨_, _, pivot, ⟨rfl, rfl⟩, hsub⟩
        exact ⟨minuend, subtrahends, pivot, ⟨rfl, rfl⟩,
          (Scope.subRule_map_iff htargets hoperands hfield).1 hsub⟩
      · rintro ⟨_, _, pivot, ⟨rfl, rfl⟩, hsub⟩
        exact ⟨f minuend, subtrahends.map f, pivot, ⟨rfl, rfl⟩,
          (Scope.subRule_map_iff htargets hoperands hfield).2 hsub⟩
  | cast targets source width =>
    simp only [mapRegs, hg]
    refine and_congr hwritable (and_congr ?_ (hholds (htotal htargets) rfl))
    rw [hoperands.widthOf_eq source List.mem_cons_self]
  | div quotient remainder witness dividend divisor =>
    have hwrites : (div (f quotient) (f remainder) (f witness) (f dividend) (f divisor)).writes =
        ([quotient, remainder, witness].filter RegId.isUsed).map f := htargets.filter_map
    have hused : scope.registers.Renames scope'.registers f
        ([quotient, remainder, witness].filter RegId.isUsed) :=
      htargets.of_subset (List.filter_subset_self _)
    have hwidth : ∀ id ∈ [dividend, divisor] ++ [quotient, remainder, witness],
        scope'.registers.widthOf (f id) = scope.registers.widthOf id := h.widthOf_eq
    simp only [List.cons_append, List.nil_append, List.forall_mem_cons] at hwidth
    obtain ⟨hdividend, hdivisor, hquotient, hremainder, hwitness, -⟩ := hwidth
    have hwu : (f witness).isUsed = witness.isUsed :=
      htargets.isUsed_eq (by simp [Microcode.targets])
    simp only [mapRegs, hg]
    refine and_congr ?_ (and_congr (hholds hquotient hdividend)
      (and_congr (hholds hremainder hdivisor) (imp_congr ?_ (hholds hwitness hdivisor))))
    · rw [hwrites]
      exact Scope.writable_map_iff hused fun id hid => hinput id (List.mem_filter.1 hid).1
    · rw [hwu]
  | skip left right constant distance =>
    have hleft := hoperands.widthOf_eq left List.mem_cons_self
    have hright := hoperands.widthOf_eq right (List.mem_cons_of_mem _ List.mem_cons_self)
    have hused := hoperands.isUsed_eq (List.mem_cons_of_mem left (List.mem_singleton_self right))
    simp only [mapRegs, hg, Rule, hleft, hright, hused, hfield]
  | skipIf left right constant distance =>
    have hleft := htotal (hoperands.of_subset (List.subset_append_left left right))
    have hright := htotal (hoperands.of_subset (List.subset_append_right left right))
    simp only [mapRegs, hg, Rule, hleft, hright, hfield, ne_eq, List.map_eq_nil_iff]
  | call bus targets sources => cases hlocal
  | jmp target =>
    show target < scope'.instructions ↔ target < scope.instructions
    rw [hcount]
  | ret => exact Iff.rfl
  | fail => exact Iff.rfl

theorem nodup_writes (h : code.Rule scope) : code.writes.Nodup := by
  cases code with
  | assign targets rhs => exact h.1.nodup.filter _
  | add targets sources constant => exact h.1.nodup.filter _
  | sub targets sources constant => exact h.1.nodup.filter _
  | mul targets sources constant => exact h.1.nodup.filter _
  | cast targets source width => exact h.1.nodup.filter _
  | div quotient remainder witness dividend divisor => exact h.1.nodup
  | call bus targets sources => exact h.1.nodup.filter _
  | _ => exact .nil

variable {offset : Nat} {early later : Pool} {fragments : List Fragment}

/-- A microcode that goes over to one fragment. -/
theorem unfolds_single {fragment : Fragment} (hs : early.Splits scope.registers)
    (hvalid : code.validate scope = .ok ())
    (hreads : fragment.code.reads ⊆ code.reads.flatMap early.group)
    (hwrites : fragment.code.writes = code.writes.flatMap early.group)
    (hdistance : fragment.code.skipDistance = code.skipDistance)
    (hterm : fragment.code.isTerminal = code.isTerminal)
    (hbranch : fragment.branch = code.skipDistance.map fun d => .offset (landing offset d))
    (hacceptable : ∀ {pool : Pool} {scope' : Scope}, early.Extends pool →
      scope.SplitTo pool scope' → fragment.code.Acceptable scope') :
    code.Unfolds scope offset early early [fragment] := by
  obtain ⟨hknown, hrule⟩ := validate_ok_iff.1 hvalid
  have hwrites' : allWrites (Fragment.codes [fragment]) = code.writes.flatMap early.group := by
    simp [allWrites, Fragment.codes, hwrites]
  have hknows : ∀ id ∈ code.writes, scope.registers.Knows id :=
    fun id hid => .of_declares (hknown id (List.mem_append_right _ hid))
  refine ⟨.refl early, ⟨?_, ?_, ?_, ?_⟩, .of_reads ?_, ?_, ?_, ?_, ?_, ?_⟩
  · intro fragment' hmem b hb
    obtain rfl := List.mem_singleton.1 hmem
    rw [hbranch] at hb
    obtain ⟨distance, hsome, rfl⟩ := Option.map_eq_some_iff.1 hb
    exact ⟨by rw [hdistance, hsome]; rfl, .inr ⟨distance, hsome, rfl⟩⟩
  · intro fragment' hmem hnone
    obtain rfl := List.mem_singleton.1 hmem
    rw [hbranch, Option.map_eq_none_iff] at hnone
    rw [hdistance, hnone]
  · intro hsome fragment' hmem
    obtain rfl := List.mem_singleton.1 hmem
    rw [← hdistance] at hsome
    exact targets_of_skipDistance hsome
  · intro hterminal
    refine ⟨fragment.code, ?_, hterm.trans hterminal⟩
    have hnone : code.skipDistance = none := by
      cases hskip : code.skipDistance with
      | none => rfl
      | some distance =>
        have hsome : code.skipDistance.isSome = true := by rw [hskip]; rfl
        rw [isTerminal_of_skipDistance hsome] at hterminal
        cases hterminal
    rw [hnone] at hbranch
    cases fragment with
    | mk code' branch =>
      cases hbranch
      rfl
  · intro code' hcode'
    obtain rfl := List.mem_singleton.1 hcode'
    exact hreads
  · intro id hid
    rw [hwrites'] at hid
    obtain ⟨target, htarget, hid⟩ := List.mem_flatMap.1 hid
    exact hs.declares_group (hknown target (List.mem_append_right _ htarget)) id hid
  · rw [hwrites']
    exact hs.nodup_lines hknows (nodup_writes hrule)
  · rw [hwrites']
    exact List.Subset.refl _
  · rw [hwrites']
    exact fun id hid => .inl hid
  · intro pool scope' hext hscope fragment' hmem
    obtain rfl := List.mem_singleton.1 hmem
    exact hacceptable hext hscope

/-! ## One microcode -/

/-- The first limb of a register with a single limb is an input if the register is one. -/
theorem isInput_firstLimb {id : RegId} (hsingle : early.Single code)
    (hs : early.Splits scope.registers) (hid : id ∈ code.operands ++ code.targets) :
    early.registers.isInput (early.firstLimb id) = scope.registers.isInput id := by
  cases id with
  | unused => rfl
  | reg i =>
    obtain ⟨limb, hlimb⟩ := hsingle _ hid rfl
    rw [Pool.firstLimb_eq hlimb]
    exact hs.isInput_limbs hlimb limb (List.mem_singleton_self limb)

theorem renames_firstLimb (hsingle : early.Single code) (hscope : scope.SplitTo early scope') :
    scope.registers.Renames scope'.registers early.firstLimb (code.operands ++ code.targets) := by
  rw [hscope.registers_eq]
  exact hsingle.renames hscope.splits

/-- A renamed microcode is under the same rule, whatever the bandwidth. -/
theorem rule_rename_iff (hlocal : code.isLocal = true) (hsingle : early.Single code)
    (hscope : scope.SplitTo early scope') (bandwidth : Nat) :
    (code.mapRegs early.firstLimb).Rule (scope'.withBandwidth bandwidth) ↔
      code.Rule (scope.withBandwidth bandwidth) := by
  have hren := renames_firstLimb hsingle hscope
  refine rule_mapRegs_iff hren (fun id hid => ?_) hscope.instructions_eq rfl hlocal
  have hinput := isInput_firstLimb hsingle hscope.splits (List.mem_append_right _ hid)
  rwa [← hscope.registers_eq] at hinput

/-- A renamed microcode is acceptable where the microcode was accepted. -/
theorem acceptable_rename (hvalid : code.validate scope = .ok ()) (hlocal : code.isLocal = true)
    (hsingle : early.Single code) (hscope : scope.SplitTo early scope') :
    (code.mapRegs early.firstLimb).Acceptable scope' := by
  obtain ⟨hknown, hrule⟩ := validate_ok_iff.1 hvalid
  have hren := renames_firstLimb hsingle hscope
  refine ⟨scope.field.bandwidth, validate_ok_iff.2 ⟨fun id hid => ?_, ?_⟩⟩
  · have hmem : id ∈ (code.operands ++ code.targets).map early.firstLimb := by
      rw [List.map_append, ← targets_mapRegs hren.unused]
      rcases List.mem_append.1 hid with hid | hid
      · exact List.mem_append_left _
          ((mem_operands_mapRegs hren.unused).1 (List.mem_filter.1 hid).1)
      · exact List.mem_append_right _ (List.mem_filter.1 hid).1
    refine hren.declares_map id hmem ?_
    rcases List.mem_append.1 hid with hid | hid
    · exact (List.mem_filter.1 hid).2
    · exact (List.mem_filter.1 hid).2
  · exact (rule_rename_iff hlocal hsingle hscope scope.field.bandwidth).2 hrule

theorem mem_reads_rename {rs : RegisterFile} (hsingle : early.Single code) (hs : early.Splits rs)
    {id : RegId} :
    id ∈ (code.mapRegs early.firstLimb).reads ↔ id ∈ code.reads.flatMap early.group := by
  have hren := hsingle.renames hs
  have hone : ∀ id ∈ code.operands, id.isUsed = true →
      early.group id = [early.firstLimb id] := by
    intro id hid hused
    obtain ⟨limb, hlimb⟩ := hsingle id (List.mem_append_left _ hid) hused
    rw [Pool.group_eq hlimb, Pool.firstLimb_eq hlimb]
  rw [reads, List.mem_filter, mem_operands_mapRegs hren.unused, List.mem_map, List.mem_flatMap]
  constructor
  · rintro ⟨⟨id, hid, rfl⟩, hused⟩
    rw [hren.isUsed_eq (List.mem_append_left _ hid)] at hused
    exact ⟨id, List.mem_filter.2 ⟨hid, hused⟩,
      hone id hid hused ▸ List.mem_singleton_self _⟩
  · rintro ⟨id', hid', hmem⟩
    obtain ⟨hid', hused⟩ := List.mem_filter.1 hid'
    rw [hone id' hid' hused, List.mem_singleton] at hmem
    refine ⟨⟨id', hid', hmem.symm⟩, ?_⟩
    rw [hmem, hren.isUsed_eq (List.mem_append_left _ hid'), hused]

theorem writes_rename {rs : RegisterFile} (hsingle : early.Single code) (hs : early.Splits rs) :
    (code.mapRegs early.firstLimb).writes = code.writes.flatMap early.group := by
  have hren := hsingle.renames hs
  have htargets := hren.of_subset (List.subset_append_right code.operands code.targets)
  rw [writes, targets_mapRegs hren.unused, htargets.filter_map]
  refine hsingle.map_eq_lines fun id hid => ?_
  exact List.mem_append_right _ (List.mem_filter.1 hid).1

theorem unfolds_rename (hvalid : code.validate scope = .ok ()) (hlocal : code.isLocal = true)
    (hs : early.Splits scope.registers) (hsingle : early.Single code) :
    code.Unfolds scope offset early early [code.rename offset early] := by
  refine unfolds_single hs hvalid (fun id hid => (mem_reads_rename hsingle hs).1 hid)
    (writes_rename hsingle hs) (skipDistance_mapRegs _ code) (isTerminal_mapRegs _ code) rfl ?_
  intro pool scope' hext hscope
  have hacceptable := acceptable_rename hvalid hlocal (hext.single hsingle) hscope
  rwa [← hext.firstLimb_eq] at hacceptable

/-- A call over the limbs of its lines matches the bus over the limbs of its lines. -/
theorem acceptable_call {bus : Nat} {targets sources : List RegId} {pool : Pool}
    (hvalid : (call bus targets sources).validate scope = .ok ())
    (hscope : scope.SplitTo pool scope') :
    (call bus (targets.flatMap pool.group) (sources.flatMap pool.group)).Acceptable scope' := by
  obtain ⟨hknown, hwritable, declared, hfind, hsources, htargets⟩ := validate_ok_iff.1 hvalid
  have hs := hscope.splits
  have hknows : ∀ id ∈ sources ++ targets, scope.registers.Knows id := by
    intro id hid hu
    refine hknown id ?_
    rw [reads, writes, ← List.filter_append]
    exact List.mem_filter.2 ⟨hid, hu⟩
  have hlines : ∀ line ∈ declared.address ++ declared.data, scope.registers.Knows line :=
    fun line hline =>
      .of_declares (hscope.lines declared (List.mem_of_find?_eq_some hfind) line hline)
  obtain ⟨declared', hfind', haddress, hdata⟩ := hscope.bus hfind
  have hknows' := hknows
  rw [List.forall_mem_append] at hknows' hlines
  refine ⟨scope.field.bandwidth,
    validate_ok_iff.2 ⟨?_, ⟨?_, ?_⟩, declared', hfind', ?_, ?_⟩⟩
  · intro id hid
    show scope'.registers.declares id = true
    rw [hscope.registers_eq]
    rw [reads, writes, ← List.filter_append, operands, Microcode.targets, ← List.flatMap_append,
      hs.filter_lines hknows] at hid
    obtain ⟨line, hline, hid⟩ := List.mem_flatMap.1 hid
    obtain ⟨hline, hused⟩ := List.mem_filter.1 hline
    exact hs.declares_group (hknows line hline hused) id hid
  · intro id hid
    show scope'.registers.isInput id = false
    rw [hscope.registers_eq]
    obtain ⟨target, htarget, hid⟩ := List.mem_flatMap.1 hid
    rw [hs.isInput_group (hknows'.2 target htarget) id hid]
    exact hwritable.notInput target htarget
  · exact hs.nodup_lines hknows'.2 hwritable.nodup
  · show scope'.registers.widths _ = scope'.registers.widths _
    rw [hscope.registers_eq, haddress, hs.widths_lines hknows'.1,
      hs.widths_lines hlines.1, hsources]
  · show scope'.registers.widths _ = scope'.registers.widths _
    rw [hscope.registers_eq, hdata, hs.widths_lines hknows'.2, hs.widths_lines hlines.2, htargets]

theorem unfolds_call {bus : Nat} {targets sources : List RegId}
    (hvalid : (call bus targets sources).validate scope = .ok ())
    (hs : early.Splits scope.registers) :
    (call bus targets sources).Unfolds scope offset early early
      [.plain (call bus (targets.flatMap early.group) (sources.flatMap early.group))] := by
  have hknown := (validate_ok_iff.1 hvalid).1
  rw [List.forall_mem_append] at hknown
  refine unfolds_single hs hvalid ?_ ?_ rfl rfl rfl ?_
  · have hlines := hs.filter_lines fun id hid hu => hknown.1 id (List.mem_filter.2 ⟨hid, hu⟩)
    exact fun id hid => hlines ▸ hid
  · exact hs.filter_lines fun id hid hu => hknown.2 id (List.mem_filter.2 ⟨hid, hu⟩)
  · intro pool scope' hext hscope
    rw [hext.group_eq]
    exact acceptable_call hvalid hscope

theorem flatMap_group_subset {pool : Pool} {ids ids' : List RegId} (h : ids ⊆ ids') :
    ids.flatMap pool.group ⊆ ids'.flatMap pool.group := by
  intro limb hlimb
  obtain ⟨id, hid, hlimb⟩ := List.mem_flatMap.1 hlimb
  exact List.mem_flatMap.2 ⟨id, h hid, hlimb⟩

/-- A cast is guarded by tests of the limbs above its width. -/
theorem unfolds_cast {targets : List RegId} {source : RegId} {width : Nat} {site : Site}
    (h : splitCast site targets source width early = .ok fragments later)
    (hs : early.Splits scope.registers) (hsize : ∀ id, scope.registers.widthOf id < Word.modulus)
    (ht : scope.registers.Storable targets)
    (hinput : ∀ id ∈ targets, scope.registers.isInput id = false) :
    (cast targets source width).Unfolds scope offset early later fragments := by
  obtain ⟨limbs, layout, codes, hlayout, hlayout', hmove, rfl⟩ := splitCast_ok h
  have hlimbs := hs.laidOut (by simpa using hsize source) hlayout
  have htargets := hs.laidOut ht.size hlayout'
  have hplaced := htargets.placed hs ht.nodup ht.size
  have hkept := Piece.keptOf_ofLimbs width hlimbs.contiguous (hlimbs.declares hs)
  have hreads : (cast targets source width).reads = [source] :=
    List.filter_eq_self.2 (hs.used_of_layout hlayout)
  have hwrites : (cast targets source width).writes = targets :=
    List.filter_eq_self.2 (hs.used_of_layout hlayout')
  have hemits := Piece.move_emits hmove hs hkept hlimbs
    (fun piece hpiece => hlimbs.width_lt hs (hsize source) (hkept.limb_mem piece hpiece)) htargets
    hplaced (htargets.notInput hs hinput)
  refine hemits.unfolds rfl rfl ?_ ?_ ?_
  · rw [hreads, ← hlimbs.ids_eq]
    intro id hid
    obtain ⟨piece, hpiece, rfl⟩ := List.mem_map.1 hid
    exact List.mem_map_of_mem (hkept.limb_mem piece hpiece)
  · rw [hwrites, htargets.ids_eq]
  · intro guard hguard
    obtain ⟨piece, hpiece, rfl⟩ := List.mem_map.1 hguard
    obtain ⟨limb, hlimb, rfl⟩ := List.mem_map.1 (List.mem_filter.1 hpiece).1
    have hid := List.mem_map_of_mem (f := Limb.id) (List.mem_filter.1 hlimb).1
    rw [hreads, ← hlimbs.ids_eq]
    exact Fragment.tests_compareConst (hlimbs.declares hs _ hid) (Nat.two_pow_pos _) hid

/-- Straight code for the limbs of the targets of a microcode, over limbs of what it reads. -/
theorem unfolds_emitted {codes : List Microcode} {reads : List RegId}
    (h : early.Emits later (reads.flatMap early.group) (code.targets.flatMap early.group) codes)
    (hskip : code.skipDistance = none) (hterm : code.isTerminal = false)
    (hreads : reads ⊆ code.reads) (hused : ∀ id ∈ code.targets, id.isUsed = true) :
    code.Unfolds scope offset early later (codes.map Fragment.plain) := by
  have hwrites : code.writes = code.targets := List.filter_eq_self.2 hused
  have hunfolds : code.Unfolds scope offset early later ([] ++ codes.map Fragment.plain) := by
    apply h.unfolds hskip hterm
    · exact flatMap_group_subset hreads
    · rw [hwrites]
    · simp
  exact hunfolds

theorem lower_unfolds {rs : RegisterFile}
    (h : lower ⟨code, rs⟩ offset early = .ok fragments later) (hrs : scope.registers = rs)
    (hlocal : code.isLocal = true) (hvalid : code.validate scope = .ok ())
    (hsized : code.Sized scope.registers) (hcompact : code.Compact scope.registers)
    (hs : early.Splits scope.registers)
    (hsize : ∀ id, scope.registers.widthOf id < Word.modulus) :
    code.Unfolds scope offset early later fragments := by
  subst hrs
  obtain ⟨hknown, hrule⟩ := validate_ok_iff.1 hvalid
  have hrun := runnable_of_validate hvalid hsized
  have hcomp := comparable_of_validate hvalid hsized
  cases lower_ok h with
  | sum hp h =>
    obtain ⟨layout, terms, hlayout, hterms, -⟩ := splitPolynomial_ok h
    have hused := hs.used_of_terms hterms
    have hstorable := ((runnable_sum_iff hp).1 hrun).1
    have hwritable := ((rule_sum_iff hp).1 hrule).1
    refine unfolds_emitted (splitPolynomial_emits h hs hsize hstorable hwritable.notInput)
      (goesOn_sum hp).2 (goesOn_sum hp).1 (fun id hid => ?_) (hs.used_of_layout hlayout)
    exact List.mem_filter.2 ⟨registers_subset hp hid, hused id hid⟩
  | difference h =>
    obtain ⟨minuend, subtrahends, pivot, rfl, hsub⟩ := hrun
    obtain ⟨hsources, htargets⟩ := splitSubtraction_used h hs
    refine unfolds_emitted (splitSubtraction_emits h hs hsize hsub hrule.1.notInput hcompact)
      rfl rfl (fun id hid => ?_) htargets
    exact List.mem_filter.2 ⟨hid, hsources id hid⟩
  | copy h => exact unfolds_cast h hs hsize hrun.1 hrule.1.notInput
  | comparison hcompares h =>
    obtain ⟨hleft, hright⟩ := hcompares.sides_lt hrun hsize
    have hreads := hcompares.subset_reads (splitComparison_used h hs)
    obtain ⟨rfl, htests⟩ :=
      splitComparison_tests h hs hleft hright (hcompares.constant_lt hcomp)
      (flatMap_group_subset hreads)
    exact unfolds_tests hcompares.skipDistance_eq htests
  | renamed hsingle => exact unfolds_rename hvalid hlocal hs hsingle
  | lines => cases hlocal

/-- What the expansion of an accepted microcode is like. -/
theorem expand_unfolds {rs : RegisterFile} (h : code.expand rs offset early = .ok fragments later)
    (hrs : scope.registers = rs) (hvalid : code.validate scope = .ok ())
    (hsized : code.Sized scope.registers) (hcompact : code.Compact scope.registers)
    (hs : early.Splits scope.registers)
    (hsize : ∀ id, scope.registers.widthOf id < Word.modulus) :
    code.Unfolds scope offset early later fragments := by
  cases hlocal : code.isLocal with
  | true =>
    obtain ⟨-, ⟨rfl, hsingle, rfl⟩ | ⟨-, hlower⟩⟩ := expand_ok h
    · exact unfolds_rename hvalid hlocal hs hsingle
    · exact lower_unfolds hlower hrs hlocal hvalid hsized hcompact hs hsize
  | false =>
    cases code with
    | call bus targets sources =>
      obtain ⟨rfl, rfl⟩ := expand_call h
      exact unfolds_call hvalid hs
    | _ => cases hlocal

end Microcode

end LimbMachine
