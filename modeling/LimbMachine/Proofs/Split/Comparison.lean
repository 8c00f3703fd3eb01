import LimbMachine.Proofs.Split.Fragments
import LimbMachine.Split.Comparison

/-!
# Comparisons over limbs

Operands of equal width agree exactly if they agree between any two common boundaries, since each
side of a boundary is a digit of the packed value. A constant agrees exactly if its parts do. So the
comparisons of the groups, all of which branch to the same place, branch when the comparison does
(`splitComparison_runs`).
-/

namespace LimbMachine

variable {s : State}

/-- Limbs agree with the parts of a constant exactly if their packed value is the constant. -/
theorem Limb.Contiguous.map_load_eq_cutAt_iff {offset constant : Nat} {limbs : List Limb}
    (hs : s.Fits) (h : Limb.Contiguous s.registers offset limbs) (hne : limbs ≠ []) :
    limbs.map (fun limb => s.load limb.id) = Limb.cutAt constant limbs ↔
      s.packed (Limb.ids limbs) = constant / 2 ^ offset := by
  have hpacked : s.packed (Limb.ids limbs) =
      Digits.join (limbs.map Limb.width) (limbs.map fun limb => s.load limb.id) := by
    rw [State.packed, h.map_width, List.map_map]
    rfl
  constructor
  · intro heq
    rw [hpacked, heq, h.join_cutAt hne]
  · intro heq
    clear hpacked
    induction limbs generalizing offset with
    | nil => exact absurd rfl hne
    | cons limb rest ih =>
      obtain ⟨hoffset, hwidth, hrest⟩ := h
      rw [Limb.ids_cons, State.packed_cons, ← hwidth] at heq
      cases rest with
      | nil =>
        have hnil : s.packed (Limb.ids []) = 0 := rfl
        rw [hnil, Nat.mul_zero, Nat.add_zero] at heq
        simp [Limb.cutAt, heq, hoffset, Nat.shiftRight_eq_div_pow]
      | cons next rest =>
        have hload := hs.load_lt limb.id
        rw [← hwidth] at hload
        have hlow : s.load limb.id = bitSlice constant limb.offset limb.width := by
          rw [bitSlice, hoffset, Nat.shiftRight_eq_div_pow, ← heq, Nat.add_mul_mod_self_left,
            Nat.mod_eq_of_lt hload]
        have hhigh : s.packed (Limb.ids (next :: rest)) = constant / 2 ^ (offset + limb.width) := by
          rw [Nat.pow_add, ← Nat.div_div_eq_div_mul, ← heq,
            Nat.add_mul_div_left _ _ (Nat.two_pow_pos _), Nat.div_eq_of_lt hload, Nat.zero_add]
        rw [List.map_cons, hlow, ih hrest (List.cons_ne_nil _ _) hhigh]
        rfl

theorem Limb.zip_all_load_iff {limbs : List Limb} {constant : Nat} :
    limbs.map (fun limb => s.load limb.id) = Limb.cutAt constant limbs ↔
      (limbs.zip (Limb.cutAt constant limbs)).all (fun pair => s.load pair.1.id == pair.2) =
        true := by
  have hlen := Limb.length_cutAt constant limbs
  generalize Limb.cutAt constant limbs = parts at hlen
  induction limbs generalizing parts with
  | nil =>
    rw [List.length_nil, List.length_eq_zero_iff] at hlen
    simp [hlen]
  | cons limb rest ih =>
    cases parts with
    | nil => cases hlen
    | cons part parts =>
      rw [List.length_cons, List.length_cons, Nat.add_right_cancel_iff] at hlen
      simp [ih parts hlen]

/-! ## Groups -/

namespace Limb

variable {rs : RegisterFile} {goal reached : Nat} {limbs : List Limb}

/-- Limbs with bits, each as wide as its register. -/
def Wide (rs : RegisterFile) (limbs : List Limb) : Prop :=
  ∀ limb ∈ limbs, 0 < limb.width ∧ limb.width = rs.widthOf limb.id

theorem Wide.tail {limb : Limb} (h : Wide rs (limb :: limbs)) : Wide rs limbs :=
  fun l hl => h l (List.mem_cons_of_mem _ hl)

theorem Wide.sum_widths (h : Wide rs limbs) :
    (rs.widths (ids limbs)).sum = (limbs.map Limb.width).sum := by
  unfold RegisterFile.widths
  rw [List.map_map]
  congr 1
  exact List.map_congr_left fun limb hlimb => (h limb hlimb).2.symm

/-- The limbs that have bits. -/
abbrev wide (limbs : List Limb) : List Limb := limbs.filter fun limb => 0 < limb.width

theorem Contiguous.wide {offset : Nat} (h : Contiguous rs offset limbs) : Wide rs (wide limbs) := by
  intro limb hlimb
  obtain ⟨hmem, hpos⟩ := List.mem_filter.1 hlimb
  exact ⟨of_decide_eq_true hpos, (h.bounds hmem).2.2⟩

theorem sum_wide (limbs : List Limb) :
    ((wide limbs).map Limb.width).sum = (limbs.map Limb.width).sum := by
  induction limbs with
  | nil => rfl
  | cons limb rest ih =>
    by_cases hpos : 0 < limb.width
    · rw [wide, List.filter_cons_of_pos (by simpa using hpos), List.map_cons, List.sum_cons, ih,
        List.map_cons, List.sum_cons]
    · rw [wide, List.filter_cons_of_neg (by simpa using hpos), ih, List.map_cons, List.sum_cons]
      omega

/-- A limb without bits is always zero. -/
theorem Contiguous.packed_wide {offset : Nat} (hs : s.Fits)
    (h : Contiguous s.registers offset limbs) :
    s.packed (ids (Limb.wide limbs)) = s.packed (ids limbs) := by
  induction limbs generalizing offset with
  | nil => rfl
  | cons limb rest ih =>
    obtain ⟨hoffset, hwidth, hrest⟩ := h
    by_cases hpos : 0 < limb.width
    · rw [Limb.wide, List.filter_cons_of_pos (by simpa using hpos), ids_cons, State.packed_cons,
        ih hrest, ids_cons, State.packed_cons]
    · have hzero : limb.width = 0 := Nat.eq_zero_of_not_pos hpos
      have hload := hs.load_lt limb.id
      rw [← hwidth, hzero, Nat.pow_zero, Nat.lt_one_iff] at hload
      rw [Limb.wide, List.filter_cons_of_neg (by simpa using hpos), ih hrest, ids_cons,
        State.packed_cons, ← hwidth, hzero, hload, Nat.pow_zero, Nat.one_mul, Nat.zero_add]

/-- Limbs are taken in order, until the goal is reached. -/
theorem takeUntil_spec (taken : List RegId) (hlt : reached < goal)
    (hle : goal ≤ reached + (limbs.map Limb.width).sum)
    (hsize : reached + (limbs.map Limb.width).sum < Word.modulus) :
    ∃ first rest, limbs = first ++ rest ∧ goal ≤ reached + (first.map Limb.width).sum ∧
      takeUntil goal reached taken limbs =
        some (taken ++ ids first, reached + (first.map Limb.width).sum, rest) := by
  induction limbs generalizing reached taken with
  | nil =>
    rw [List.map_nil, List.sum_nil] at hle
    omega
  | cons limb limbs ih =>
    rw [List.map_cons, List.sum_cons] at hle hsize
    have hadd : Word.add reached limb.width = reached + limb.width := Word.add_eq (by omega)
    unfold takeUntil
    simp only [hadd]
    by_cases hdone : goal ≤ reached + limb.width
    · refine ⟨[limb], limbs, rfl, by simpa using hdone, ?_⟩
      simp [hdone]
    · obtain ⟨first, rest, rfl, hgoal, htake⟩ := ih (taken ++ [limb.id])
        (Nat.not_le.1 hdone) (by omega) (by omega)
      refine ⟨limb :: first, rest, rfl, ?_, ?_⟩
      · rw [List.map_cons, List.sum_cons]
        omega
      · rw [if_neg hdone, htake, List.append_assoc, List.map_cons, List.sum_cons, Nat.add_assoc]
        rfl

/-- Two operands of which some limbs are in groups already: `left` and `right` are those of the open
group, which starts at bit `base` of both. -/
structure Open (rs : RegisterFile) (base endLeft endRight : Nat) (left right : List RegId)
    (lefts rights : List Limb) : Prop where
  wideLeft : Wide rs lefts
  wideRight : Wide rs rights
  left_eq : endLeft = base + (rs.widths left).sum
  right_eq : endRight = base + (rs.widths right).sum
  le : endLeft ≤ endRight
  closed : endLeft = endRight → left = [] ∧ right = []
  total_eq : endLeft + (lefts.map Limb.width).sum = endRight + (rights.map Limb.width).sum
  size : endLeft + (lefts.map Limb.width).sum < Word.modulus

section Groups

variable {base endLeft endRight : Nat} {left right : List RegId} {limb : Limb}
  {lefts rights : List Limb}

/-- The next limb on the left, together with as many on the right as it takes to get as far, closes
the open group or extends it. -/
theorem Open.groupsFrom_cons (h : Open rs base endLeft endRight left right (limb :: lefts) rights) :
    ∃ first rest, rights = first ++ rest ∧
      endLeft + limb.width ≤ endRight + (first.map Limb.width).sum ∧
      groupsFrom endLeft endRight (left, right) (limb :: lefts) rights =
        if endLeft + limb.width = endRight + (first.map Limb.width).sum then
          (left ++ [limb.id], right ++ ids first) :: groupsFrom (endLeft + limb.width)
            (endRight + (first.map Limb.width).sum) ([], []) lefts rest
        else groupsFrom (endLeft + limb.width) (endRight + (first.map Limb.width).sum)
          (left ++ [limb.id], right ++ ids first) lefts rest := by
  have htotal := h.total_eq
  have hsize := h.size
  rw [List.map_cons, List.sum_cons] at htotal hsize
  have hadd : Word.add endLeft limb.width = endLeft + limb.width := Word.add_eq (by omega)
  rcases Nat.lt_or_ge endRight (endLeft + limb.width) with hlt | hge
  · obtain ⟨first, rest, rfl, hgoal, htake⟩ := takeUntil_spec right hlt
      (show _ ≤ endRight + (rights.map Limb.width).sum by omega) (by omega)
    refine ⟨first, rest, rfl, hgoal, ?_⟩
    rw [groupsFrom]
    simp only [hadd]
    rw [if_neg (by omega), if_neg (by omega), htake]
  · refine ⟨[], rights, rfl, by simpa using hge, ?_⟩
    rw [groupsFrom]
    simp only [hadd, List.map_nil, List.sum_nil, Nat.add_zero, List.append_nil, if_pos hge]

/-- Both sides of a common boundary are digits of the packed value. -/
theorem packed_append_eq_iff (hs : s.Fits) {left' right' : List RegId}
    (hwidth : (s.registers.widths left).sum = (s.registers.widths right).sum) :
    s.packed (left ++ left') = s.packed (right ++ right') ↔
      s.packed left = s.packed right ∧ s.packed left' = s.packed right' := by
  have hleft := hs.packed_lt left
  have hright := hs.packed_lt right
  rw [State.packed_append, State.packed_append, hwidth]
  rw [hwidth] at hleft
  constructor
  · intro heq
    have hmod := congrArg (· % 2 ^ (s.registers.widths right).sum) heq
    simp only [Nat.add_mul_mod_self_left, Nat.mod_eq_of_lt hleft, Nat.mod_eq_of_lt hright] at hmod
    refine ⟨hmod, Nat.eq_of_mul_eq_mul_left (Nat.two_pow_pos (s.registers.widths right).sum) ?_⟩
    omega
  · rintro ⟨hlow, hhigh⟩
    rw [hlow, hhigh]

/-- With the next limb on the left the open group is closed, or it stays open. -/
theorem Open.advance (h : Open rs base endLeft endRight left right (limb :: lefts) rights) :
    ∃ first rest, rights = first ++ rest ∧
      (((rs.widths (left ++ [limb.id])).sum = (rs.widths (right ++ ids first)).sum ∧
          groupsFrom endLeft endRight (left, right) (limb :: lefts) rights =
            (left ++ [limb.id], right ++ ids first) ::
              groupsFrom (endLeft + limb.width) (endLeft + limb.width) ([], []) lefts rest ∧
          Open rs (endLeft + limb.width) (endLeft + limb.width) (endLeft + limb.width) [] [] lefts
            rest) ∨
        (groupsFrom endLeft endRight (left, right) (limb :: lefts) rights =
            groupsFrom (endLeft + limb.width) (endRight + (first.map Limb.width).sum)
              (left ++ [limb.id], right ++ ids first) lefts rest ∧
          Open rs base (endLeft + limb.width) (endRight + (first.map Limb.width).sum)
            (left ++ [limb.id]) (right ++ ids first) lefts rest)) := by
  obtain ⟨first, rest, rfl, hle, hgroups⟩ := h.groupsFrom_cons
  have hlimb := h.wideLeft limb List.mem_cons_self
  have hfirst : Wide rs first := fun l hl => h.wideRight l (List.mem_append_left _ hl)
  have hrest : Wide rs rest := fun l hl => h.wideRight l (List.mem_append_right _ hl)
  have hleft : (rs.widths (left ++ [limb.id])).sum = (rs.widths left).sum + limb.width := by
    simp [hlimb.2]
  have hright : (rs.widths (right ++ ids first)).sum =
      (rs.widths right).sum + (first.map Limb.width).sum := by
    rw [RegisterFile.widths_append, List.sum_append, hfirst.sum_widths]
  have htotal := h.total_eq
  have hsize := h.size
  have hleft_eq := h.left_eq
  have hright_eq := h.right_eq
  rw [List.map_cons, List.sum_cons, List.map_append, List.sum_append] at htotal
  rw [List.map_cons, List.sum_cons] at hsize
  refine ⟨first, rest, rfl, ?_⟩
  rw [hgroups]
  split
  · rename_i hclose
    rw [← hclose]
    exact .inl ⟨by omega, rfl, h.wideLeft.tail, hrest, rfl, rfl, Nat.le_refl _,
      fun _ => ⟨rfl, rfl⟩, by omega, by omega⟩
  · rename_i hopen
    exact .inr ⟨rfl, h.wideLeft.tail, hrest, by omega, by omega, hle, fun heq => absurd heq hopen,
      by omega, by omega⟩

/-- Where nothing is left on the left, nothing is on the right. -/
theorem Open.nil (h : Open rs base endLeft endRight left right [] rights) :
    left = [] ∧ right = [] ∧ rights = [] := by
  have htotal := h.total_eq
  have hle := h.le
  rw [List.map_nil, List.sum_nil] at htotal
  obtain ⟨rfl, rfl⟩ := h.closed (by omega)
  refine ⟨rfl, rfl, ?_⟩
  cases rights with
  | nil => rfl
  | cons limb rights =>
    have hpos := (h.wideRight limb List.mem_cons_self).1
    rw [List.map_cons, List.sum_cons] at htotal
    omega

/-- A group can be compared: both sides have limbs and the same number of bits, no more than a size
can count. -/
structure Group.Comparable (rs : RegisterFile) (group : Group) : Prop where
  right_ne : group.2 ≠ []
  even : (rs.widths group.1).sum = (rs.widths group.2).sum
  left_size : (rs.widths group.1).sum < Word.modulus
  right_size : (rs.widths group.2).sum < Word.modulus

/-- The groups of two operands can be compared and consist of limbs of the operands. -/
theorem Open.groups_comparable (h : Open rs base endLeft endRight left right lefts rights) :
    ∀ group ∈ groupsFrom endLeft endRight (left, right) lefts rights,
      group.Comparable rs ∧ group.1 ⊆ left ++ ids lefts ∧
        group.2 ⊆ right ++ ids rights := by
  induction lefts generalizing base endLeft endRight left right rights with
  | nil => simp [groupsFrom]
  | cons limb lefts ih =>
    have hlimb := h.wideLeft limb List.mem_cons_self
    obtain ⟨first, rest, rfl, ⟨heven, hgroups, hopen⟩ | ⟨hgroups, hopen⟩⟩ := h.advance
    · rw [hgroups]
      intro group hgroup
      rcases List.mem_cons.1 hgroup with rfl | hgroup
      · have hleft : (rs.widths (left ++ [limb.id])).sum = (rs.widths left).sum + limb.width := by
          simp [hlimb.2]
        have hsize := h.size
        have hleft_eq := h.left_eq
        rw [List.map_cons, List.sum_cons] at hsize
        have hlsize : (rs.widths (left ++ [limb.id])).sum < Word.modulus := by omega
        refine ⟨⟨?_, heven, hlsize, heven ▸ hlsize⟩, ?_, ?_⟩
        · intro (hnil : right ++ ids first = [])
          rw [hnil, RegisterFile.widths_nil, List.sum_nil] at heven
          omega
        · simp
        · simp [← List.append_assoc]
      · obtain ⟨hcomp, hsubl, hsubr⟩ := ih hopen group hgroup
        refine ⟨hcomp, List.Subset.trans hsubl ?_, List.Subset.trans hsubr ?_⟩
        · simp
        · simp [← List.append_assoc]
    · rw [hgroups]
      intro group hgroup
      obtain ⟨hcomp, hsubl, hsubr⟩ := ih hopen group hgroup
      refine ⟨hcomp, List.Subset.trans hsubl ?_, List.Subset.trans hsubr ?_⟩
      · simp
      · simp

/-- All groups agree exactly if the operands do. -/
theorem Open.groups_agree_iff (hs : s.Fits)
    (h : Open s.registers base endLeft endRight left right lefts rights) :
    (∀ group ∈ groupsFrom endLeft endRight (left, right) lefts rights,
      s.packed group.1 = s.packed group.2) ↔
        s.packed (left ++ ids lefts) = s.packed (right ++ ids rights) := by
  induction lefts generalizing base endLeft endRight left right rights with
  | nil =>
    obtain ⟨rfl, rfl, rfl⟩ := h.nil
    simp [groupsFrom]
  | cons limb lefts ih =>
    obtain ⟨first, rest, rfl, hcase⟩ := h.advance
    have hlefts : left ++ ids (limb :: lefts) = (left ++ [limb.id]) ++ ids lefts := by simp
    have hrights : right ++ ids (first ++ rest) = (right ++ ids first) ++ ids rest := by
      rw [ids, List.map_append, List.append_assoc]
    rw [hlefts, hrights]
    rcases hcase with ⟨heven, hgroups, hopen⟩ | ⟨hgroups, hopen⟩
    · rw [hgroups, List.forall_mem_cons, ih hopen]
      exact (packed_append_eq_iff hs heven).symm
    · rw [hgroups]
      exact ih hopen

end Groups

/-- A group with one limb on each side is compared as two registers, any other as two lists. -/
theorem compareGroup_cases (group : Group) :
    (∃ l r, group = ([l], [r]) ∧ compareGroup group = .skip l r 0 0) ∨
      compareGroup group = .skipIf group.1 group.2 0 0 := by
  unfold compareGroup
  split
  · exact .inl ⟨_, _, rfl, rfl⟩
  · exact .inr rfl

/-- The comparison of a group compares what is packed into its sides. -/
theorem Group.Comparable.compares {group : Group} (h : group.Comparable s.registers)
    (hused : ∀ id ∈ group.2, id.isUsed = true) (landing : Nat) :
    (⟨compareGroup group, some (.offset landing)⟩ : Fragment).Compares (.offset landing) s
      (s.packed group.1 == s.packed group.2) := by
  have hstep : ∀ a b d : Nat, Step.compare a b d =
      if a == b then .skip 1 else .skip (Word.add 1 d) := by
    intro a b d
    by_cases heq : a = b
    · simp [Step.compare, heq]
    · simp [Step.compare, heq]
  refine ⟨rfl, ?_⟩
  intro d σ io m
  obtain ⟨left, right⟩ := group
  rw [← hstep]
  have hskipIf : (Microcode.skipIf left right 0 d).execute io ⟨s, m⟩ =
      .ok (.compare (s.packed left) (s.packed right) d) ⟨s, m⟩ := by
    simp only [Microcode.execute, estate_get_bind, if_neg h.right_ne, s.pack_eq h.left_size,
      s.pack_eq h.right_size]
    rfl
  rcases compareGroup_cases (left, right) with ⟨l, r, heq, _⟩ | hcode
  · cases heq
    have hexec : (Microcode.skip l r 0 d).execute io ⟨s, m⟩ =
        .ok (.compare (s.load l) (if r.isUsed then s.load r else 0) d) ⟨s, m⟩ := rfl
    rw [if_pos (hused r (List.mem_singleton_self r)), ← State.packed_singleton,
      ← State.packed_singleton] at hexec
    exact hexec
  · rw [Fragment.settled]
    simp only [hcode]
    exact hskipIf

end Limb

/-! ## The whole comparison -/

section Whole

variable {site : Site} {left : List RegId} {right : Option (List RegId)} {constant landing : Nat}
  {early later pool : Pool} {fragments : List Fragment} {limbs others : List Limb} {s s' : State}

/-- A comparison allocates nothing; it goes limb by limb against a constant, else group by group. -/
theorem splitComparison_ok
    (h : splitComparison site left right constant landing early = .ok fragments later) :
    early = later ∧ ∃ limbs, early.layout left = .ok limbs ∧
      ((right = none ∧ fragments = (limbs.zip (Limb.cutAt constant limbs)).map fun pair =>
          Fragment.compareConst pair.1.id pair.2 (.offset landing)) ∨
        ∃ ids others, right = some ids ∧ early.layout ids = .ok others ∧
          Limb.total limbs = Limb.total others ∧
          fragments = (Limb.groups limbs others).map fun group =>
            ⟨Limb.compareGroup group, some (.offset landing)⟩) := by
  unfold splitComparison at h
  obtain ⟨other, mid, hask, h⟩ := estate_bind_ok.1 h
  obtain ⟨hother, rfl⟩ := Pool.asking_ok.1 hask
  obtain ⟨limbs, mid, hask, h⟩ := estate_bind_ok.1 h
  obtain ⟨hlayout, rfl⟩ := Pool.asking_ok.1 hask
  cases right with
  | none =>
    cases hother
    obtain ⟨rfl, rfl⟩ := estate_pure_ok.1 h
    exact ⟨rfl, limbs, hlayout, .inl ⟨rfl, rfl⟩⟩
  | some ids =>
    obtain ⟨others, hothers, hsome⟩ := except_map_ok.1 hother
    cases hsome
    by_cases htotal : Limb.total limbs = Limb.total others
    · simp only [ne_eq, htotal, not_true_eq_false, if_false] at h
      obtain ⟨rfl, rfl⟩ := estate_pure_ok.1 h
      exact ⟨rfl, limbs, hlayout, .inr ⟨ids, others, rfl, hothers, htotal, rfl⟩⟩
    · simp only [ne_eq, htotal, not_false_eq_true, if_true] at h
      cases h

/-- Limb by limb, a register compares with the constant cut along its limbs. -/
theorem Pool.Represents.compares_constant (hrep : pool.Represents s s')
    (hlaid : pool.LaidOut left limbs) (hconstant : constant < 2 ^ (s.registers.widths left).sum) :
    Fragment.Runs ((limbs.zip (Limb.cutAt constant limbs)).map fun pair =>
        Fragment.compareConst pair.1.id pair.2 (.offset landing)) s'
      (if s.packed left = constant then .fall else .branch (.offset landing)) s' := by
  have hpacked := hrep.packed_flatten hlaid.flatten_eq
  have hcont : Limb.Contiguous s'.registers 0 limbs := by
    rw [hrep.registers_eq]
    exact hlaid.contiguous
  have hruns := Fragment.runs_comparisons (limbs.zip (Limb.cutAt constant limbs))
    (fun pair => Fragment.compareConst pair.1.id pair.2 (.offset landing))
    (fun pair => s'.load pair.1.id == pair.2) fun pair _ =>
      Fragment.compares_const s' pair.1.id pair.2 (.offset landing)
  have hagree : (limbs.zip (Limb.cutAt constant limbs)).all
      (fun pair => s'.load pair.1.id == pair.2) = true ↔ s.packed left = constant := by
    rw [← hpacked, ← Limb.zip_all_load_iff]
    by_cases hne : limbs = []
    · subst hne
      have hzero := hlaid.sum_width hrep.splits
      rw [List.map_nil, List.sum_nil] at hzero
      rw [← hzero, Nat.pow_zero, Nat.lt_one_iff] at hconstant
      simp [Limb.cutAt, State.packed_nil, hconstant]
    · have hiff : _ ↔ _ = constant / 2 ^ 0 := hcont.map_load_eq_cutAt_iff hrep.limbs_fit hne
      rw [Nat.pow_zero, Nat.div_one] at hiff
      exact hiff
  rw [if_congr hagree rfl rfl] at hruns
  exact hruns

/-- The limbs of two lists of registers of the same width, before any is in a group. -/
theorem Pool.LaidOut.opens {rs : RegisterFile} {ids : List RegId} (hs : pool.Splits rs)
    (hl : pool.LaidOut left limbs) (hr : pool.LaidOut ids others)
    (hleft : (rs.widths left).sum < Word.modulus) (hright : (rs.widths ids).sum < Word.modulus)
    (htotal : Limb.total limbs = Limb.total others) :
    Limb.Open pool.registers 0 0 0 [] [] (Limb.wide limbs) (Limb.wide others) := by
  have hsuml := Limb.sum_wide limbs
  have hsumr := Limb.sum_wide others
  rw [← hl.sum_width hs] at hleft
  rw [← hr.sum_width hs] at hright
  rw [Limb.total, Limb.total, Word.sum_eq hleft, Word.sum_eq hright] at htotal
  exact ⟨hl.contiguous.wide, hr.contiguous.wide, rfl, rfl, Nat.le_refl _, fun _ => ⟨rfl, rfl⟩,
    by omega, by omega⟩

/-- Group by group, two lists of registers of the same width compare. -/
theorem Pool.Represents.compares_groups {ids : List RegId} (hrep : pool.Represents s s')
    (hl : pool.LaidOut left limbs) (hr : pool.LaidOut ids others)
    (hleft : (s.registers.widths left).sum < Word.modulus)
    (hright : (s.registers.widths ids).sum < Word.modulus)
    (htotal : Limb.total limbs = Limb.total others) :
    Fragment.Runs ((Limb.groups limbs others).map fun group =>
        ⟨Limb.compareGroup group, some (.offset landing)⟩) s'
      (if s.packed left = s.packed ids then .fall else .branch (.offset landing)) s' := by
  have hcontl : Limb.Contiguous s'.registers 0 limbs := by
    rw [hrep.registers_eq]
    exact hl.contiguous
  have hcontr : Limb.Contiguous s'.registers 0 others := by
    rw [hrep.registers_eq]
    exact hr.contiguous
  have hpackedl := hcontl.packed_wide hrep.limbs_fit
  have hpackedr := hcontr.packed_wide hrep.limbs_fit
  have hopen : Limb.Open s'.registers 0 0 0 [] [] (Limb.wide limbs) (Limb.wide others) := by
    rw [hrep.registers_eq]
    exact hl.opens hrep.splits hr hleft hright htotal
  have hcomparable := hopen.groups_comparable
  have hagree := hopen.groups_agree_iff hrep.limbs_fit
  rw [List.nil_append, List.nil_append, hpackedl, hpackedr, hrep.packed_flatten hl.flatten_eq,
    hrep.packed_flatten hr.flatten_eq] at hagree
  have hused : ∀ group ∈ Limb.groups limbs others, ∀ id ∈ group.2, id.isUsed = true := by
    intro group hgroup id hid
    obtain ⟨limb, hlimb, rfl⟩ := List.mem_map.1 ((hcomparable group hgroup).2.2 hid)
    have hdecl := hr.declares hrep.splits _
      (List.mem_map_of_mem (f := Limb.id) (List.mem_filter.1 hlimb).1)
    cases hid' : limb.id with
    | unused =>
      rw [hid'] at hdecl
      cases hdecl
    | reg i => rfl
  have hruns := Fragment.runs_comparisons (Limb.groups limbs others)
    (fun group => ⟨Limb.compareGroup group, some (.offset landing)⟩)
    (fun group => s'.packed group.1 == s'.packed group.2) fun group hgroup =>
      (hcomparable group hgroup).1.compares (hused group hgroup) landing
  have hall : (Limb.groups limbs others).all
      (fun group => s'.packed group.1 == s'.packed group.2) = true ↔
        s.packed left = s.packed ids := by
    rw [List.all_eq_true, ← hagree]
    simp only [beq_iff_eq]
    rfl
  rw [if_congr hall rfl rfl] at hruns
  exact hruns

/-- Splitting a comparison falls through or branches just as the comparison does. -/
theorem splitComparison_runs {rs : RegisterFile}
    (h : splitComparison site left right constant landing early = .ok fragments later)
    (hs : early.Splits rs) (hleft : (rs.widths left).sum < Word.modulus)
    (hright : ∀ ids, right = some ids → (rs.widths ids).sum < Word.modulus)
    (hconstant : right = none → constant < 2 ^ (rs.widths left).sum) :
    early = later ∧ ∀ {pool : Pool} {s s' : State}, later.Extends pool →
      pool.Represents s s' → s.registers = rs → Fragment.Runs fragments s'
        (if s.packed left = (right.map s.packed).getD constant then .fall
          else .branch (.offset landing)) s' := by
  obtain ⟨rfl, limbs, hlayout, hcase⟩ := splitComparison_ok h
  refine ⟨rfl, ?_⟩
  intro pool s s' hext hrep hrs
  subst hrs
  have hl := (hs.laidOut hleft hlayout).mono hs hext
  rcases hcase with ⟨rfl, rfl⟩ | ⟨ids, others, rfl, hothers, htotal, rfl⟩
  · exact hrep.compares_constant hl (hconstant rfl)
  · have hr := (hs.laidOut (hright ids rfl) hothers).mono hs hext
    exact hrep.compares_groups hl hr hleft (hright ids rfl) htotal

end Whole

end LimbMachine
