import LimbMachine.Proofs.Split.Expansion

/-!
# Lines over limbs

Values that pass a boundary one by one, the inputs and outputs of a routine and the lines of a bus,
pass it limb by limb after splitting (`splitLines`). A call expands into one call over the limbs of
its lines (`Microcode.expand_call`): its request is the request limb by limb
(`Pool.Represents.map_load_lines`), and storing the answer limb by limb keeps the states alike
(`Pool.Represents.assign_lines`).
-/

namespace LimbMachine

/-- Values of the given widths, cut one after the other into the values of their limbs. -/
def splitLines (width : Nat) (totals values : List Nat) : List Nat :=
  (List.zipWith (fun total v => Digits.cut (limbWidths width total) v) totals values).flatten

@[simp] theorem splitLines_nil (width : Nat) (values : List Nat) :
    splitLines width [] values = [] := rfl

@[simp] theorem splitLines_cons (width total v : Nat) (totals values : List Nat) :
    splitLines width (total :: totals) (v :: values) =
      Digits.cut (limbWidths width total) v ++ splitLines width totals values := rfl

/-- Values that fit are told apart by their limbs. -/
theorem splitLines_inj {width : Nat} (hw : 0 < width) {totals vs vs' : List Nat}
    (h : Digits.Fit totals vs) (h' : Digits.Fit totals vs') :
    splitLines width totals vs = splitLines width totals vs' ↔ vs = vs' := by
  refine ⟨fun heq => ?_, fun heq => by rw [heq]⟩
  induction h generalizing vs' with
  | nil => cases h'; rfl
  | @cons total v totals vs hv _ ih =>
    cases h' with
    | @cons _ v' _ vs' hv' hvs' =>
      rw [splitLines_cons, splitLines_cons] at heq
      obtain ⟨hfirst, hrest⟩ := List.append_inj heq (by simp)
      have hjoin := congrArg (Digits.join (limbWidths width total)) hfirst
      rw [Digits.join_cut_of_lt (by rw [sum_limbWidths hw]; exact hv),
        Digits.join_cut_of_lt (by rw [sum_limbWidths hw]; exact hv')] at hjoin
      rw [hjoin, ih hvs' hrest]

namespace Pool

variable {pool early later : Pool} {rs : RegisterFile} {s s' s₁ s₁' : State} {id : RegId}
  {ids : List RegId} {vs : List Nat}

/-- The lines that stand for a line after splitting; a left-out line stays left out. -/
def group (pool : Pool) (id : RegId) : List RegId :=
  if id.isUsed then (pool.limbs? id).getD [] else [id]

theorem group_eq {limbs : List RegId} (h : pool.limbs? id = some limbs) :
    pool.group id = limbs := by
  obtain ⟨i, rfl, -⟩ := limbs?_eq_some_iff.1 h
  simp [group, RegId.isUsed, h]

theorem Extends.group_eq (h : early.Extends pool) : early.group = pool.group := by
  funext id
  rw [group, group, h.limbs?_eq]

/-- A line is left out and stays so, or it goes over to its limbs. -/
theorem Splits.group_cases (h : pool.Splits rs) (hid : rs.Knows id) :
    (id = .unused ∧ pool.group id = [.unused]) ∨
      ∃ limbs, pool.limbs? id = some limbs ∧ pool.group id = limbs := by
  cases hu : id.isUsed with
  | false =>
    rw [RegId.eq_unused hu]
    exact .inl ⟨rfl, rfl⟩
  | true =>
    have hsome := hid hu
    rw [← h.limbs?_isSome] at hsome
    obtain ⟨limbs, hlimbs⟩ := Option.isSome_iff_exists.1 hsome
    exact .inr ⟨limbs, hlimbs, group_eq hlimbs⟩

theorem Splits.widths_group (h : pool.Splits rs) (hid : rs.Knows id) :
    pool.registers.widths (pool.group id) = limbWidths pool.width (rs.widthOf id) := by
  rcases h.group_cases hid with ⟨rfl, hgroup⟩ | ⟨limbs, hlimbs, hgroup⟩
  · rw [hgroup, RegisterFile.widthOf_unused, limbWidths_of_le (Nat.zero_le _)]
    rfl
  · rw [hgroup]
    exact (h.limbs_spec hlimbs).1

theorem Splits.knows_group (h : pool.Splits rs) (hid : rs.Knows id) :
    ∀ limb ∈ pool.group id, limb.isUsed = true → pool.registers.declares limb = true := by
  intro limb hlimb hused
  rcases h.group_cases hid with ⟨rfl, hgroup⟩ | ⟨limbs, hlimbs, hgroup⟩
  · rw [hgroup, List.mem_singleton] at hlimb
    rw [hlimb] at hused
    cases hused
  · rw [hgroup] at hlimb
    exact (h.limbs_spec hlimbs).2 limb hlimb

theorem Splits.disjoint_group {id' : RegId} (h : pool.Splits rs) (hid : rs.Knows id)
    (hid' : rs.Knows id') (hne : id ≠ id') : (pool.group id).Disjoint (pool.group id') := by
  intro limb hlimb hlimb'
  rcases h.group_cases hid with ⟨rfl, hgroup⟩ | ⟨limbs, hlimbs, hgroup⟩
  · rcases h.group_cases hid' with ⟨rfl, -⟩ | ⟨limbs', hlimbs', hgroup'⟩
    · exact hne rfl
    · rw [hgroup, List.mem_singleton] at hlimb
      rw [hgroup'] at hlimb'
      have hdecl := (h.limbs_spec hlimbs').2 limb hlimb'
      rw [hlimb] at hdecl
      cases hdecl
  · rw [hgroup] at hlimb
    rcases h.group_cases hid' with ⟨rfl, hgroup'⟩ | ⟨limbs', hlimbs', hgroup'⟩
    · rw [hgroup', List.mem_singleton] at hlimb'
      have hdecl := (h.limbs_spec hlimbs).2 limb hlimb
      rw [hlimb'] at hdecl
      cases hdecl
    · rw [hgroup'] at hlimb'
      exact h.disjoint_limbs hlimbs hlimbs' hne hlimb hlimb'

/-- Different lines stay different. -/
theorem Splits.nodup_lines (h : pool.Splits rs) (hids : ∀ id ∈ ids, rs.Knows id)
    (hnd : ids.Nodup) : (ids.flatMap pool.group).Nodup := by
  rw [List.nodup_flatMap]
  constructor
  · intro id hid
    rcases h.group_cases (hids id hid) with ⟨rfl, hgroup⟩ | ⟨limbs, hlimbs, hgroup⟩
    · rw [hgroup]
      exact List.nodup_singleton _
    · rw [hgroup]
      exact h.nodup_limbs hlimbs
  · refine List.Pairwise.imp_of_mem (fun {id id'} hid hid' hne => ?_) hnd
    exact h.disjoint_group (hids id hid) (hids id' hid') hne

/-- Lines that can take values can take them limb by limb. -/
theorem Splits.takes_lines (h : pool.Splits rs) (hids : ∀ id ∈ ids, rs.Knows id)
    (hlen : vs.length = ids.length) :
    List.Forall₂ (State.Takes pool.registers) (ids.flatMap pool.group)
      (splitLines pool.width (rs.widths ids) vs) := by
  induction ids generalizing vs with
  | nil => exact .nil
  | cons id ids ih =>
    match vs, hlen with
    | v :: vs, hlen =>
      have hid := hids id List.mem_cons_self
      rw [List.flatMap_cons, RegisterFile.widths_cons, splitLines_cons, ← h.widths_group hid]
      refine List.rel_append (State.takes_cut v (h.knows_group hid)) ?_
      exact ih (fun id hid => hids id (List.mem_cons_of_mem _ hid)) (by simpa using hlen)

namespace Represents

theorem map_load_group (h : pool.Represents s s') (hid : s.registers.Knows id) :
    (pool.group id).map s'.load =
      Digits.cut (limbWidths pool.width (s.registers.widthOf id)) (s.load id) := by
  rcases h.splits.group_cases hid with ⟨rfl, hgroup⟩ | ⟨limbs, hlimbs, hgroup⟩
  · rw [hgroup, RegisterFile.widthOf_unused, limbWidths_of_le (Nat.zero_le _)]
    rfl
  · rw [hgroup]
    exact h.map_load_limbs hlimbs

/-- Lines hold their values limb by limb. -/
theorem map_load_lines (h : pool.Represents s s') (hids : ∀ id ∈ ids, s.registers.Knows id) :
    (ids.flatMap pool.group).map s'.load =
      splitLines pool.width (s.registers.widths ids) (ids.map s.load) := by
  induction ids with
  | nil => rfl
  | cons id ids ih =>
    rw [List.flatMap_cons, List.map_append, h.map_load_group (hids id List.mem_cons_self),
      ih fun id hid => hids id (List.mem_cons_of_mem _ hid)]
    rfl

end Represents

/-- The limbs of a line took the limbs of its value. -/
theorem taken_group {P : RegId → Nat → Prop} (h : pool.Splits rs)
    (hids : ∀ id ∈ ids, rs.Knows id) (hlen : vs.length = ids.length)
    (htaken : List.Forall₂ P (ids.flatMap pool.group)
      (splitLines pool.width (rs.widths ids) vs)) :
    List.Forall₂ (fun id v =>
      List.Forall₂ P (pool.group id) (Digits.cut (limbWidths pool.width (rs.widthOf id)) v))
        ids vs := by
  induction ids generalizing vs with
  | nil =>
    rw [List.length_eq_zero_iff.1 hlen]
    exact .nil
  | cons id ids ih =>
    match vs, hlen with
    | v :: vs, hlen =>
      have hcut : (Digits.cut (limbWidths pool.width (rs.widthOf id)) v).length =
          (pool.group id).length := by
        rw [Digits.length_cut, ← h.widths_group (hids id List.mem_cons_self),
          RegisterFile.length_widths]
      rw [List.flatMap_cons, RegisterFile.widths_cons, splitLines_cons] at htaken
      have hfirst := List.forall₂_take_append _ _ _ htaken
      have hrest := List.forall₂_drop_append _ _ _ htaken
      rw [hcut, List.take_left] at hfirst
      rw [hcut, List.drop_left] at hrest
      refine .cons hfirst (ih (fun id hid => hids id (List.mem_cons_of_mem _ hid)) ?_ hrest)
      simpa using hlen

/-- Values stored both into lines and limb by limb are represented. -/
theorem Represents.assign_lines (h : pool.Represents s s')
    (hids : ∀ id ∈ ids, s.registers.Knows id) (hfit : Digits.Fit (s.registers.widths ids) vs)
    (hassigned : s.Assigned ids vs s₁) (hfits : s₁.Fits)
    (hassigned' : s'.Assigned (ids.flatMap pool.group)
      (splitLines pool.width (s.registers.widths ids) vs) s₁') (hfits' : s₁'.Fits) :
    pool.Represents s₁ s₁' := by
  have htouch : s'.Touches pool.registers (ids.flatMap pool.group) s₁' :=
    ⟨hassigned'.registers_eq, hassigned'.pc_eq, hfits', fun id _ hid => hassigned'.frame id hid⟩
  have hregs : s₁'.registers = pool.registers := hassigned'.registers_eq.trans h.registers_eq
  have hlen : vs.length = ids.length := by simpa using hfit.length_eq.symm
  have htaken := List.forall₂_iff_get.1 hassigned.taken
  have hgroups := List.forall₂_iff_get.1 (taken_group h.splits hids hlen hassigned'.taken)
  have hfit := List.forall₂_iff_get.1 (List.forall₂_map_left_iff.1 hfit)
  refine h.of_touches hassigned hfits h.splits (.refl pool) (fun limb hlimb hu => ?_) htouch
    (fun id hid => ?_)
  · obtain ⟨id, hid, hmem⟩ := List.mem_flatMap.1 hlimb
    rcases h.splits.group_cases (hids id hid) with ⟨rfl, hgroup⟩ | ⟨limbs, hlimbs, hgroup⟩
    · rw [hgroup, List.mem_singleton] at hmem
      rw [hmem] at hu
      cases hu
    · exact ⟨id, hid, limbs, hlimbs, hgroup ▸ hmem⟩
  · rcases h.splits.group_cases (hids id hid) with ⟨rfl, -⟩ | ⟨limbs, hlimbs, hgroup⟩
    · rfl
    · obtain ⟨i, hi, rfl⟩ := List.getElem_of_mem hid
      have hi' : i < vs.length := hlen ▸ hi
      obtain ⟨hwidths, hdecl⟩ := h.splits.limbs_spec hlimbs
      have hload : s₁.load ids[i] = vs[i] := by
        obtain ⟨j, hj, -⟩ := limbs?_eq_some_iff.1 hlimbs
        exact htaken.2 i hi hi' (by rw [List.get_eq_getElem, hj]; rfl)
      have hlimb : limbs.map s₁'.load =
          Digits.cut (limbWidths pool.width (s.registers.widthOf ids[i])) vs[i] := by
        have hgroup' := hgroups.2 i hi hi'
        simp only [List.get_eq_getElem, hgroup] at hgroup'
        have hused : ∀ limb ∈ limbs, limb.isUsed = true := fun limb hmem =>
          RegisterFile.isUsed_of_declares (hdecl limb hmem)
        have hboth := (List.forall₂_and_left _ _).2 ⟨hused, hgroup'⟩
        rw [← List.forall₂_eq_eq_eq, List.forall₂_map_left_iff]
        exact hboth.imp fun limb v htake => htake.2 htake.1
      rw [read, hlimbs, Option.getD_some, State.packed, hregs, hwidths, hlimb, hload,
        Digits.join_cut_of_lt]
      rw [sum_limbWidths h.splits.width_pos]
      exact hfit.2 i hi hi'

theorem flatten_eq_lines {limbIds : List RegId} (h : pool.flatten ids = .ok limbIds) :
    limbIds = ids.flatMap pool.group := by
  induction ids generalizing limbIds with
  | nil => exact flatten_nil.1 h
  | cons id ids ih =>
    obtain ⟨first, rest, hfirst, hrest, rfl⟩ := flatten_cons.1 h
    rw [List.flatMap_cons, group_eq hfirst, ih hrest]

theorem Single.map_eq_lines {code : Microcode} (h : pool.Single code)
    (hsub : ids ⊆ code.operands ++ code.targets) :
    ids.map pool.firstLimb = ids.flatMap pool.group := by
  rw [List.map_eq_flatMap]
  refine List.flatMap_congr fun id hid => ?_
  cases hu : id.isUsed with
  | false =>
    rw [RegId.eq_unused hu]
    rfl
  | true =>
    obtain ⟨limb, hlimb⟩ := h id (hsub hid) hu
    rw [group_eq hlimb, firstLimb_eq hlimb]

end Pool

theorem Microcode.lower_call {rs : RegisterFile} {offset bus : Nat} {targets sources : List RegId}
    {early later : Pool} {fragments : List Fragment}
    (h : lower ⟨call bus targets sources, rs⟩ offset early = .ok fragments later) :
    early = later ∧ early.flatten targets = .ok (targets.flatMap early.group) ∧
      early.flatten sources = .ok (sources.flatMap early.group) ∧ fragments =
        [Fragment.plain
          (call bus (targets.flatMap early.group) (sources.flatMap early.group))] := by
  cases lower_ok h with
  | lines htargets hsources =>
    rw [← Pool.flatten_eq_lines htargets, ← Pool.flatten_eq_lines hsources]
    exact ⟨rfl, htargets, hsources, rfl⟩
  | sum hp => cases hp
  | comparison hcompares => cases hcompares
  | renamed hsingle hlocal => cases hlocal

/-- A call goes over to the limbs of its lines. -/
theorem Microcode.expand_call {rs : RegisterFile} {offset bus : Nat} {targets sources : List RegId}
    {early later : Pool} {fragments : List Fragment}
    (h : (call bus targets sources).expand rs offset early = .ok fragments later) :
    early = later ∧ fragments =
      [Fragment.plain (call bus (targets.flatMap early.group) (sources.flatMap early.group))] := by
  obtain ⟨-, ⟨rfl, hsingle, rfl⟩ | ⟨-, hlower⟩⟩ := expand_ok h
  · have hg := guarded_eq (Pool.firstLimb_unused early)
    have htargets := hsingle.map_eq_lines (List.subset_append_right sources targets)
    have hsources := hsingle.map_eq_lines (List.subset_append_left sources targets)
    refine ⟨rfl, ?_⟩
    rw [← htargets, ← hsources]
    simp only [rename, mapRegs, hg, skipDistance, Option.map_none]
    rfl
  · obtain ⟨rfl, -, -, rfl⟩ := lower_call hlower
    exact ⟨rfl, rfl⟩

end LimbMachine
