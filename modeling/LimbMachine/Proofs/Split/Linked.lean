import LimbMachine.Proofs.Split.Unfolding

/-!
# Control and writes in a split instruction

Put together to an instruction, the fragments of accepted microcodes pass the checks of an
instruction, but for the bandwidth of a field (`Instruction.Unfolded.failsOnly_validate`). Control
stays within the instruction, since every expansion is followed by the next one and branches go to
the start of an expansion or to the failure at the end. A way through the split instruction follows
a way through the instruction (`Instruction.Unfolded.follows`): of the limbs of a register it has
written those that the way before splitting has, and those that the expansion it is in has written
so far.
-/

namespace LimbMachine

open Microcode (allWrites)

/-! ## Settled branches -/

namespace Microcode

variable {code : Microcode} {scope : Scope} {rs : RegisterFile}

theorem Acceptable.withSkip (h : code.Acceptable scope) (distance : Nat) :
    (code.withSkip distance).Acceptable scope := by
  obtain ⟨bandwidth, hvalid⟩ := h
  exact ⟨bandwidth, (validate_withSkip_iff distance).2 hvalid⟩

theorem not_mem_allWrites_take {codes : List Microcode} {id : RegId} (h : (allWrites codes).Nodup)
    {k : Nat} (hcode : codes[k]? = some code) (hid : id ∈ code.writes) :
    id ∉ allWrites (codes.take k) := by
  obtain ⟨hk, hget⟩ := List.getElem?_eq_some_iff.1 hcode
  rw [← List.take_append_drop k codes, allWrites, List.flatMap_append,
    List.drop_eq_getElem_cons hk, hget, List.flatMap_cons] at h
  intro hmem
  exact (List.nodup_append.1 h).2.2 id hmem id (List.mem_append_left _ hid) rfl

end Microcode

namespace Fragment

variable {expansions : List (List Fragment)} {fragments : List Fragment} {fragment : Fragment}
  {here offset k next : Nat} {scope : Scope}

@[simp] theorem reads_settle (expansions : List (List Fragment)) (fragment : Fragment)
    (here : Nat) : (settle expansions fragment here).reads = fragment.code.reads := by
  unfold settle
  split
  · exact Microcode.reads_withSkip _ _
  · rfl

@[simp] theorem writes_settle (expansions : List (List Fragment)) (fragment : Fragment)
    (here : Nat) : (settle expansions fragment here).writes = fragment.code.writes := by
  unfold settle
  split
  · exact Microcode.writes_withSkip _ _
  · rfl

theorem acceptable_settle (expansions : List (List Fragment)) (here : Nat)
    (h : fragment.code.Acceptable scope) : (settle expansions fragment here).Acceptable scope := by
  unfold settle
  split
  · exact h.withSkip _
  · exact h

/-- Control goes on to the next fragment or to where the branch has to land. -/
theorem mem_successors_settle (hplain : fragment.branch = none →
    fragment.code.skipDistance = none) (hhere : here + 1 < Word.modulus)
    (hland : ∀ b, fragment.branch = some b → target expansions b < Word.modulus)
    (h : next ∈ (settle expansions fragment here).successors here) :
    fragment.code.isTerminal = false ∧
      (next = here + 1 ∨ ∃ b, fragment.branch = some b ∧ next = target expansions b) := by
  obtain ⟨hterm, hnext⟩ := Microcode.mem_successors_iff.1 h
  unfold settle at hterm hnext
  cases hbranch : fragment.branch with
  | none =>
    rw [hbranch] at hterm hnext
    rcases hnext with rfl | ⟨distance, hskip, -, -⟩
    · exact ⟨hterm, .inl (Word.add_eq hhere)⟩
    · rw [hplain hbranch] at hskip
      cases hskip
  | some b =>
    rw [hbranch] at hterm hnext
    refine ⟨by simpa using hterm, ?_⟩
    rcases hnext with rfl | ⟨distance, hskip, hpos, rfl⟩
    · exact .inl (Word.add_eq hhere)
    · rw [Microcode.skipDistance_withSkip] at hskip
      obtain ⟨_, -, rfl⟩ := Option.map_eq_some_iff.1 hskip
      have hlt := hland b hbranch
      refine .inr ⟨b, rfl, ?_⟩
      rw [Microcode.landing_eq_add (by omega)]
      omega

/-! ## Places -/

/-- The fragment that stands at `here` in the split instruction: the one at place `k` of the
expansion of the microcode at `offset`. -/
structure Place (expansions : List (List Fragment)) (here offset k : Nat)
    (fragments : List Fragment) (fragment : Fragment) : Prop where
  expansion : expansions[offset]? = some fragments
  get : fragments[k]? = some fragment
  here_eq : here = start expansions offset + k

theorem exists_place (h : here < expansions.flatten.length) :
    ∃ offset k fragments fragment, Place expansions here offset k fragments fragment := by
  induction expansions generalizing here with
  | nil => cases h
  | cons first rest ih =>
    by_cases hfirst : here < first.length
    · exact ⟨0, here, first, first[here], rfl, List.getElem?_eq_getElem hfirst,
        (Nat.zero_add _).symm⟩
    · rw [List.flatten_cons, List.length_append] at h
      obtain ⟨offset, k, fragments, fragment, hplace⟩ :=
        ih (show here - first.length < _ by omega)
      refine ⟨offset + 1, k, fragments, fragment, hplace.expansion, hplace.get, ?_⟩
      have hhere := hplace.here_eq
      rw [start] at hhere
      rw [start, List.take_succ_cons, List.flatten_cons, List.length_append]
      omega

namespace Place

theorem lt_length (h : Place expansions here offset k fragments fragment) : k < fragments.length :=
  (List.getElem?_eq_some_iff.1 h.get).1

theorem mem (h : Place expansions here offset k fragments fragment) : fragment ∈ fragments :=
  List.mem_of_getElem? h.get

theorem lt_start_succ (h : Place expansions here offset k fragments fragment) :
    here < start expansions (offset + 1) := by
  rw [start_succ h.expansion, h.here_eq]
  exact Nat.add_lt_add_left h.lt_length _

theorem mem_flatten (h : Place expansions here offset k fragments fragment) :
    fragment ∈ expansions.flatten :=
  List.mem_flatten.2 ⟨fragments, List.mem_of_getElem? h.expansion, h.mem⟩

theorem lt_flatten (h : Place expansions here offset k fragments fragment) :
    here < expansions.flatten.length := by
  have hend : start expansions (offset + 1) ≤ start expansions expansions.length :=
    start_mono (List.getElem?_eq_some_iff.1 h.expansion).1
  rw [start_length] at hend
  exact Nat.lt_of_lt_of_le h.lt_start_succ hend

/-- An expansion that starts no later stands no later. -/
theorem offset_le (h : Place expansions here offset k fragments fragment) {offset' : Nat}
    (hstart : start expansions offset' ≤ here) : offset' ≤ offset := by
  by_contra hlt
  have hle : start expansions (offset + 1) ≤ start expansions offset' :=
    start_mono (Nat.not_le.1 hlt)
  have := h.lt_start_succ
  omega

/-- Only one place of one expansion stands there. -/
theorem unique (h : Place expansions here offset k fragments fragment) {offset' k' : Nat}
    {fragments' : List Fragment} {fragment' : Fragment}
    (h' : Place expansions here offset' k' fragments' fragment') : offset = offset' ∧ k = k' := by
  have hle := h'.offset_le (h.here_eq ▸ Nat.le_add_right _ k)
  have hge := h.offset_le (h'.here_eq ▸ Nat.le_add_right _ k')
  obtain rfl : offset = offset' := Nat.le_antisymm hle hge
  have hk := h.here_eq.symm.trans h'.here_eq
  exact ⟨rfl, Nat.add_left_cancel hk⟩

/-- The microcode that stands there. -/
theorem link_eq (h : Place expansions here offset k fragments fragment) :
    (link expansions)[here]? = some (settle expansions fragment here) := by
  obtain ⟨before, rest, hflat, hbefore⟩ := flatten_eq_of_getElem? h.expansion
  obtain ⟨hk, hget⟩ := List.getElem?_eq_some_iff.1 h.get
  have hsplit : fragments = fragments.take k ++ fragment :: fragments.drop (k + 1) := by
    rw [← hget, ← List.drop_eq_getElem_cons hk, List.take_append_drop]
  have hflat' : expansions.flatten =
      (before ++ fragments.take k) ++ fragment :: (fragments.drop (k + 1) ++ rest) := by
    rw [hflat]
    conv_lhs => rw [hsplit]
    simp
  have hlength : (before ++ fragments.take k).length = here := by
    rw [List.length_append, List.length_take, Nat.min_eq_left (Nat.le_of_lt hk), hbefore, h.here_eq]
  rw [← hlength]
  exact link_getElem? hflat'

end Place

/-- A split instruction holds its fragments, their branches settled, and a failure at the end. -/
theorem link_cases {code : Microcode} (h : (link expansions)[here]? = some code) :
    (∃ offset k fragments fragment, Place expansions here offset k fragments fragment ∧
        code = settle expansions fragment here) ∨
      (here = expansions.flatten.length ∧ code = .fail) := by
  rcases Nat.lt_or_ge here expansions.flatten.length with hlt | hge
  · obtain ⟨offset, k, fragments, fragment, hplace⟩ := exists_place hlt
    rw [hplace.link_eq] at h
    exact .inl ⟨offset, k, fragments, fragment, hplace, (Option.some.inj h).symm⟩
  · rw [link, List.getElem?_append_right (by simpa using hge), List.length_map,
      List.length_zipIdx] at h
    split at h
    · have hzero : here - expansions.flatten.length < 1 := (List.getElem?_eq_some_iff.1 h).1
      exact .inr ⟨by omega, List.mem_singleton.1 (List.mem_of_getElem? h)⟩
    · cases h

end Fragment

/-! ## Accepted instructions -/

/-- The expansions of an accepted instruction, made while the pool grew through `pools`. -/
structure Instruction.Unfolded (scope : Scope) (instruction : Instruction) (pools : Nat → Pool)
    (expansions : List (List Fragment)) : Prop where
  valid : instruction.validate scope = .ok ()
  landing : ∀ {offset : Nat} {code : Microcode}, instruction[offset]? = some code →
    offset + 1 + code.skipDistance.getD 0 < Word.modulus
  length_eq : expansions.length = instruction.length
  splits : (pools 0).Splits scope.registers
  unfolds : ∀ {offset : Nat} {code : Microcode}, instruction[offset]? = some code →
    ∃ fragments, expansions[offset]? = some fragments ∧
      code.Unfolds scope offset (pools offset) (pools (offset + 1)) fragments

namespace Instruction

variable {scope : Scope} {instruction : Instruction} {offset next : Nat} {code : Microcode}

/-- Control that does not leave at a microcode stays within the instruction, branching or not. -/
theorem Flows.landing_lt (h : instruction.Flows) (hcode : instruction[offset]? = some code)
    (hterm : code.isTerminal = false)
    (hland : offset + 1 + code.skipDistance.getD 0 < Word.modulus) :
    offset + 1 + code.skipDistance.getD 0 < instruction.length ∧
      offset + 1 + code.skipDistance.getD 0 ∈ code.successors offset := by
  have hmem : offset + 1 + code.skipDistance.getD 0 ∈ code.successors offset := by
    rw [Microcode.mem_successors_iff]
    refine ⟨hterm, ?_⟩
    cases hskip : code.skipDistance with
    | none =>
      rw [hskip] at hland
      exact .inl (Word.add_eq hland).symm
    | some distance =>
      rw [hskip] at hland
      rw [Option.getD_some] at hland ⊢
      rcases Nat.eq_zero_or_pos distance with rfl | hpos
      · exact .inl (Word.add_eq hland).symm
      · refine .inr ⟨distance, rfl, hpos, ?_⟩
        exact (Microcode.landing_eq_add hland).symm
  exact ⟨h offset code hcode _ hmem, hmem⟩

theorem Flows.succ_lt (h : instruction.Flows) (hcode : instruction[offset]? = some code)
    (hterm : code.isTerminal = false) (hland : offset + 1 < Word.modulus) :
    offset + 1 < instruction.length ∧ offset + 1 ∈ code.successors offset := by
  have hmem : offset + 1 ∈ code.successors offset :=
    Microcode.mem_successors_iff.2 ⟨hterm, .inl (Word.add_eq hland).symm⟩
  exact ⟨h offset code hcode _ hmem, hmem⟩

/-! ## Expansions that branch as their microcodes do -/

/-- Control stays within the instruction, and the expansions of its microcodes branch as these
do. -/
structure Routed (instruction : Instruction) (expansions : List (List Fragment)) : Prop where
  flows : instruction.Flows
  landing : ∀ {offset : Nat} {code : Microcode}, instruction[offset]? = some code →
    offset + 1 + code.skipDistance.getD 0 < Word.modulus
  length_eq : expansions.length = instruction.length
  branches : ∀ {offset : Nat} {code : Microcode}, instruction[offset]? = some code →
    ∃ fragments, expansions[offset]? = some fragments ∧ Fragment.Branches code offset fragments

namespace Routed

variable {expansions : List (List Fragment)} {here k : Nat} {fragments : List Fragment}
  {fragment : Fragment}

/-- Every expansion starts before the end, since the last one is not empty. -/
theorem start_lt (h : instruction.Routed expansions) (hlt : offset < instruction.length) :
    Fragment.start expansions offset < expansions.flatten.length := by
  obtain ⟨last, hlast⟩ : ∃ last, instruction.length = last + 1 :=
    ⟨_, (Nat.sub_add_cancel (by omega)).symm⟩
  have hcode := List.getElem?_eq_getElem (show last < instruction.length by omega)
  obtain ⟨fragments, hget, hbranches⟩ := h.branches hcode
  -- control has to leave at the last microcode
  have hterm : instruction[last].isTerminal = true := by
    cases hterm : instruction[last].isTerminal with
    | true => rfl
    | false =>
      have hland := h.landing hcode
      have := (h.flows.succ_lt hcode hterm (by omega)).1
      omega
  obtain ⟨code', rfl, -⟩ := hbranches.last hterm
  have hend := Fragment.start_succ hget
  have hlength := h.length_eq
  rw [← hlast, ← hlength, Fragment.start_length] at hend
  have hmono : Fragment.start expansions offset ≤ Fragment.start expansions last :=
    Fragment.start_mono (by omega)
  rw [hend]
  simp only [List.length_singleton]
  omega

/-- A comparison branches to the start of an expansion. -/
theorem target_landing (h : instruction.Routed expansions)
    (hcode : instruction[offset]? = some code) {distance : Nat}
    (hskip : code.skipDistance = some distance) :
    offset + 1 + distance < instruction.length ∧
    offset + 1 + distance ∈ code.successors offset ∧
      Fragment.target expansions (.offset (Microcode.landing offset distance)) =
        Fragment.start expansions (offset + 1 + distance) := by
  have hland := h.landing hcode
  have hterm : code.isTerminal = false :=
    Microcode.isTerminal_of_skipDistance (by rw [hskip]; rfl)
  have hflow := h.flows.landing_lt hcode hterm hland
  rw [hskip, Option.getD_some] at hland hflow
  refine ⟨hflow.1, hflow.2, ?_⟩
  rw [Microcode.landing_eq_add hland, Fragment.target_offset]
  rw [h.length_eq]
  exact Nat.le_of_lt hflow.1

/-- No branch lands past the end, or in front of the expansion that follows. -/
theorem target_bounds (h : instruction.Routed expansions)
    (hplace : Fragment.Place expansions here offset k fragments fragment)
    (hcode : instruction[offset]? = some code) (hbranches : Fragment.Branches code offset fragments)
    {b : Branch} (hb : fragment.branch = some b) :
    here + 1 ≤ Fragment.target expansions b ∧
      Fragment.target expansions b ≤ expansions.flatten.length := by
  obtain ⟨-, rfl | ⟨distance, hskip, rfl⟩⟩ := hbranches.branch fragment hplace.mem b hb
  · rw [Fragment.target_trailer, Fragment.start_length]
    exact ⟨hplace.lt_flatten, Nat.le_refl _⟩
  · obtain ⟨hin, -, htarget⟩ := h.target_landing hcode hskip
    rw [htarget]
    have hmono : Fragment.start expansions (offset + 1) ≤
        Fragment.start expansions (offset + 1 + distance) :=
          Fragment.start_mono (Nat.le_add_right _ _)
    exact ⟨Nat.le_trans hplace.lt_start_succ hmono, Nat.le_of_lt (h.start_lt hin)⟩

/-- Where control can go from a fragment: to the next one, to where its microcode branches, or to
the failure at the end. -/
theorem next_cases (h : instruction.Routed expansions)
    (hlen : (Fragment.link expansions).length < Word.modulus)
    (hplace : Fragment.Place expansions here offset k fragments fragment)
    (hcode : instruction[offset]? = some code) (hbranches : Fragment.Branches code offset fragments)
    (hnext : next ∈ (Fragment.settle expansions fragment here).successors here) :
    code.isTerminal = false ∧ offset + 1 < instruction.length ∧
      (next = here + 1 ∨
        (fragment.branch = some .trailer ∧ next = expansions.flatten.length) ∨
        ∃ distance, code.skipDistance = some distance ∧
          offset + 1 + distance < instruction.length ∧
            offset + 1 + distance ∈ code.successors offset ∧
          next = Fragment.start expansions (offset + 1 + distance)) := by
  have hbody := Fragment.length_flatten_le expansions
  have hlt := hplace.lt_flatten
  have hland := h.landing hcode
  have hsize : ∀ b, fragment.branch = some b → Fragment.target expansions b < Word.modulus := by
    intro b hb
    have := (h.target_bounds hplace hcode hbranches hb).2
    omega
  obtain ⟨hterm, hnext⟩ := Fragment.mem_successors_settle
    (hbranches.plain fragment hplace.mem) (by omega) hsize hnext
  have hterm' : code.isTerminal = false := by
    cases hcterm : code.isTerminal with
    | false => rfl
    | true =>
      obtain ⟨code', rfl, hcode'⟩ := hbranches.last hcterm
      rw [List.mem_singleton.1 hplace.mem] at hterm
      exact absurd hterm (by rw [Fragment.plain, hcode']; decide)
  refine ⟨hterm', (h.flows.succ_lt hcode hterm' (by omega)).1, ?_⟩
  rcases hnext with rfl | ⟨b, hb, rfl⟩
  · exact .inl rfl
  · obtain ⟨-, rfl | ⟨distance, hskip, rfl⟩⟩ := hbranches.branch fragment hplace.mem b hb
    · exact .inr (.inl ⟨hb, by rw [Fragment.target_trailer, Fragment.start_length]⟩)
    · obtain ⟨hin, hsucc, htarget⟩ := h.target_landing hcode hskip
      exact .inr (.inr ⟨distance, hskip, hin, hsucc, htarget⟩)

end Routed

namespace Unfolded

variable {pools : Nat → Pool} {expansions : List (List Fragment)} {here k : Nat}
  {fragments : List Fragment} {fragment : Fragment}

theorem flows (h : instruction.Unfolded scope pools expansions) : instruction.Flows :=
  (Instruction.validate_ok_iff.1 h.valid).2.2.1

theorem settles (h : instruction.Unfolded scope pools expansions)
    (hcode : instruction[offset]? = some code) : instruction.Settles offset code :=
  checkWrites_ok_iff.1 (Instruction.validate_ok_iff.1 h.valid).2.2.2 offset code hcode

theorem known (h : instruction.Unfolded scope pools expansions)
    (hcode : instruction[offset]? = some code) :
    ∀ id ∈ code.reads ++ code.writes, scope.registers.declares id = true :=
  (Microcode.validate_ok_iff.1
    ((Instruction.validate_ok_iff.1 h.valid).2.1 code (List.mem_of_getElem? hcode))).1

theorem pools_mono (h : instruction.Unfolded scope pools expansions) {offset' : Nat}
    (hle : offset ≤ offset') (hlt : offset' ≤ instruction.length) :
    (pools offset).Extends (pools offset') := by
  induction offset' with
  | zero =>
    obtain rfl := Nat.le_zero.1 hle
    exact .refl _
  | succ offset' ih =>
    rcases Nat.lt_or_eq_of_le hle with hle | rfl
    · obtain ⟨fragments, -, hunfolds⟩ := h.unfolds (List.getElem?_eq_getElem hlt)
      exact (ih (Nat.le_of_lt_succ hle) (Nat.le_of_lt hlt)).trans hunfolds.grows
    · exact .refl _

/-- Every fragment belongs to a microcode. -/
theorem code_of_place (h : instruction.Unfolded scope pools expansions)
    (hplace : Fragment.Place expansions here offset k fragments fragment) :
    ∃ code, instruction[offset]? = some code ∧
      code.Unfolds scope offset (pools offset) (pools (offset + 1)) fragments := by
  have hlt := (List.getElem?_eq_some_iff.1 hplace.expansion).1
  rw [h.length_eq] at hlt
  obtain ⟨fragments', hget, hunfolds⟩ := h.unfolds (List.getElem?_eq_getElem hlt)
  rw [hplace.expansion] at hget
  cases hget
  exact ⟨_, List.getElem?_eq_getElem hlt, hunfolds⟩

theorem routed (h : instruction.Unfolded scope pools expansions) :
    instruction.Routed expansions where
  flows := h.flows
  landing := h.landing
  length_eq := h.length_eq
  branches hcode := by
    obtain ⟨fragments, hget, hunfolds⟩ := h.unfolds hcode
    exact ⟨fragments, hget, hunfolds.branches⟩

/-- Control stays within a split instruction. -/
theorem flows_link (h : instruction.Unfolded scope pools expansions)
    (hlen : (Fragment.link expansions).length < Word.modulus) :
    Instruction.Flows (Fragment.link expansions) := by
  intro here code' hget next hnext
  have hbody := Fragment.length_flatten_le expansions
  rcases Fragment.link_cases hget with ⟨offset, k, fragments, fragment, hplace, rfl⟩ |
    ⟨rfl, rfl⟩
  · obtain ⟨code, hcode, hunfolds⟩ := h.code_of_place hplace
    obtain ⟨-, hsucc, hcase⟩ := h.routed.next_cases hlen hplace hcode hunfolds.branches hnext
    rcases hcase with rfl | ⟨hb, rfl⟩ | ⟨distance, -, hin, -, rfl⟩
    · have hle := hplace.lt_start_succ
      have := h.routed.start_lt hsucc
      omega
    · have htrailer := Fragment.link_trailer hplace.mem_flatten hb
      rw [Fragment.start_length] at htrailer
      exact (List.getElem?_eq_some_iff.1 htrailer).1
    · have := h.routed.start_lt hin
      omega
  · cases hnext

end Unfolded

end Instruction

/-! ## Ways through a split instruction -/

/-- A way through a split instruction has written `limbs`, the last of them, `sofar`, in the
expansion it is in; it follows a way through the instruction that has written `written`. Of the
limbs of declared registers it has written those of the same registers, and all else are registers
the pool has. -/
structure Pool.Tracks (pool : Pool) (rs : RegisterFile) (sofar written limbs : List RegId) :
    Prop where
  limb_iff : ∀ r, rs.declares r = true → ∀ id ∈ pool.group r, id ∈ limbs ↔
    id ∈ sofar ∨ r ∈ written
  declared : ∀ id ∈ limbs, pool.registers.declares id = true ∨ id ∈ sofar
  kept : sofar ⊆ limbs

namespace Pool.Tracks

variable {pool later : Pool} {rs : RegisterFile} {sofar written limbs ids : List RegId}

theorem nil (pool : Pool) (rs : RegisterFile) : pool.Tracks rs [] [] [] :=
  ⟨by simp, by simp, List.Subset.refl _⟩

/-- More is written within the expansion. -/
theorem write (h : pool.Tracks rs sofar written limbs) (ids : List RegId) :
    pool.Tracks rs (sofar ++ ids) written (limbs ++ ids) := by
  refine ⟨fun r hr id hid => ?_, fun id hid => ?_, ?_⟩
  · rw [List.mem_append, List.mem_append, h.limb_iff r hr id hid, or_right_comm]
  · rcases List.mem_append.1 hid with hid | hid
    · exact (h.declared id hid).imp_right (List.mem_append_left ids)
    · exact .inr (List.mem_append_right sofar hid)
  · exact List.append_subset.2 ⟨List.subset_append_of_subset_left ids h.kept,
      List.subset_append_right limbs ids⟩

/-- The pool may have grown where nothing is written so far. -/
theorem mono (h : pool.Tracks rs [] written limbs) (hext : pool.Extends later) :
    later.Tracks rs [] written limbs := by
  refine ⟨?_, fun id hid => ?_, h.kept⟩
  · rw [← hext.group_eq]
    exact h.limb_iff
  · exact (h.declared id hid).imp_left (RegisterFile.declares_mono hext.registers)

/-- At the end of an expansion its microcode has written what it writes. -/
theorem finish {scope : Scope} {code : Microcode} {offset : Nat} {fragments : List Fragment}
    (h : pool.Tracks scope.registers (allWrites (Fragment.codes fragments)) written limbs)
    (hs : pool.Splits scope.registers) (hunfolds : code.Unfolds scope offset pool later fragments)
    (hknown : ∀ id ∈ code.writes, scope.registers.declares id = true) :
    later.Tracks scope.registers [] (written ++ code.writes) limbs := by
  refine ⟨fun r hr id hid => ?_, fun id hid => ?_, List.nil_subset _⟩
  · rw [← hunfolds.grows.group_eq] at hid
    rw [h.limb_iff r hr id hid, List.mem_append]
    constructor
    · rintro (hsofar | hwritten)
      · rcases hunfolds.only id hsofar with hid' | hfresh
        · obtain ⟨r', hr', hid'⟩ := List.mem_flatMap.1 hid'
          by_cases hne : r = r'
          · exact .inr (.inr (hne ▸ hr'))
          · exact absurd hid'
              (hs.disjoint_group (.of_declares hr) (.of_declares (hknown r' hr')) hne hid)
        · rw [hs.declares_group hr id hid] at hfresh
          cases hfresh
      · exact .inr (.inl hwritten)
    · rintro (hnil | hwritten | hwritten)
      · cases hnil
      · exact .inr hwritten
      · exact .inl (hunfolds.all (List.mem_flatMap.2 ⟨r, hwritten, hid⟩))
  · rcases h.declared id hid with hdecl | hsofar
    · exact .inl (RegisterFile.declares_mono hunfolds.grows.registers hdecl)
    · exact .inl (hunfolds.declared id hsofar)

end Pool.Tracks

namespace Instruction.Unfolded

variable {scope : Scope} {instruction : Instruction} {pools : Nat → Pool}
  {expansions : List (List Fragment)} {here offset k : Nat} {fragments : List Fragment}
  {fragment : Fragment} {code : Microcode} {limbs : List RegId}

/-- A way that has written `limbs` and is at place `k` of the expansion of the microcode at `offset`
follows a way to that microcode. -/
def Follows (scope : Scope) (instruction : Instruction) (pools : Nat → Pool) (offset : Nat)
    (fragments : List Fragment) (limbs : List RegId) : Prop :=
  ∃ written, Way instruction offset written ∧
    (pools offset).Tracks scope.registers (allWrites (Fragment.codes fragments)) written limbs

theorem splits_at (h : instruction.Unfolded scope pools expansions)
    (hle : offset ≤ instruction.length) : (pools offset).Splits scope.registers :=
  h.splits.mono (h.pools_mono (Nat.zero_le offset) hle)

/-- Past its expansion, a microcode at which control does not leave is followed by the next one. -/
theorem follows_next (h : instruction.Unfolded scope pools expansions)
    (hcode : instruction[offset]? = some code)
    (hunfolds : code.Unfolds scope offset (pools offset) (pools (offset + 1)) fragments)
    (hterm : code.isTerminal = false)
    (hfollows : Follows scope instruction pools offset fragments limbs) :
    Follows scope instruction pools (offset + 1) [] limbs := by
  obtain ⟨written, hway, htracks⟩ := hfollows
  have hlt := (List.getElem?_eq_some_iff.1 hcode).1
  have hland := h.landing hcode
  have hsucc := (h.flows.succ_lt hcode hterm (by omega)).2
  refine ⟨written ++ code.writes, .step hway hcode hsucc (Nat.lt_succ_self offset), ?_⟩
  exact htracks.finish (h.splits_at (Nat.le_of_lt hlt)) hunfolds fun id hid =>
    h.known hcode id (List.mem_append_right _ hid)

/-- Empty expansions are passed. -/
theorem follows_of_start_eq (h : instruction.Unfolded scope pools expansions) {offset' : Nat}
    (hle : offset ≤ offset') (hlt : offset' < instruction.length)
    (hstart : Fragment.start expansions offset = Fragment.start expansions offset')
    (hfollows : Follows scope instruction pools offset [] limbs) :
    Follows scope instruction pools offset' [] limbs := by
  induction offset' with
  | zero =>
    obtain rfl := Nat.le_zero.1 hle
    exact hfollows
  | succ offset' ih =>
    rcases Nat.lt_or_eq_of_le hle with hle | rfl
    · have hle := Nat.le_of_lt_succ hle
      obtain ⟨code, hcode⟩ : ∃ code, instruction[offset']? = some code :=
        ⟨_, List.getElem?_eq_getElem (Nat.lt_of_succ_lt hlt)⟩
      obtain ⟨fragments, hget, hunfolds⟩ := h.unfolds hcode
      have hmono : Fragment.start expansions offset ≤ Fragment.start expansions offset' :=
        Fragment.start_mono hle
      have hsucc := Fragment.start_succ hget
      obtain rfl : fragments = [] := List.length_eq_zero_iff.1 (by omega)
      refine h.follows_next hcode hunfolds ?_ (ih hle (Nat.lt_of_succ_lt hlt) (by omega))
      cases hterm : code.isTerminal with
      | false => rfl
      | true =>
        obtain ⟨code', hnil, -⟩ := hunfolds.branches.last hterm
        cases hnil
    · exact hfollows

/-- A way that comes to the start of an expansion comes to the first fragment from there on. -/
theorem follows_at (h : instruction.Unfolded scope pools expansions) {offset' : Nat}
    (hplace : Fragment.Place expansions here offset k fragments fragment)
    (hstart : Fragment.start expansions offset' = here)
    (hfollows : Follows scope instruction pools offset' [] limbs) :
    Follows scope instruction pools offset (fragments.take k) limbs := by
  have hle := hplace.offset_le (Nat.le_of_eq hstart)
  have hlt := (List.getElem?_eq_some_iff.1 hplace.expansion).1
  rw [h.length_eq] at hlt
  have hmono : Fragment.start expansions offset' ≤ Fragment.start expansions offset :=
    Fragment.start_mono hle
  have hhere := hplace.here_eq
  obtain rfl : k = 0 := by omega
  exact h.follows_of_start_eq hle hlt (by omega) hfollows

/-- A comparison that branches leaves its expansion with nothing written. -/
theorem follows_branch (h : instruction.Unfolded scope pools expansions) {distance : Nat}
    (hcode : instruction[offset]? = some code)
    (hunfolds : code.Unfolds scope offset (pools offset) (pools (offset + 1)) fragments)
    (hskip : code.skipDistance = some distance) (hlt : offset + 1 + distance < instruction.length)
    (hsucc : offset + 1 + distance ∈ code.successors offset)
    (hfollows : Follows scope instruction pools offset (fragments.take k) limbs) :
    Follows scope instruction pools (offset + 1 + distance) [] limbs := by
  obtain ⟨written, hway, htracks⟩ := hfollows
  have hsome : code.skipDistance.isSome = true := by rw [hskip]; rfl
  have hquiet : allWrites (Fragment.codes (fragments.take k)) = [] := by
    apply Microcode.allWrites_eq_nil
    intro code' hcode'
    obtain ⟨fragment, hmem, rfl⟩ := List.mem_map.1 hcode'
    exact hunfolds.branches.quiet hsome fragment (List.mem_of_mem_take hmem)
  have hwrites : code.writes = [] := by
    rw [Microcode.writes, Microcode.targets_of_skipDistance hsome]
    rfl
  rw [hquiet] at htracks
  have hstep := Way.step hway hcode hsucc (by omega)
  rw [hwrites, List.append_nil] at hstep
  exact ⟨written, hstep, htracks.mono (h.pools_mono (by omega) (Nat.le_of_lt hlt))⟩

/-- **A way through a split instruction follows a way through the instruction.** -/
theorem follows (h : instruction.Unfolded scope pools expansions)
    (hlen : (Fragment.link expansions).length < Word.modulus)
    (hway : Way (Fragment.link expansions) here limbs)
    (hplace : Fragment.Place expansions here offset k fragments fragment) :
    Follows scope instruction pools offset (fragments.take k) limbs := by
  induction hway generalizing offset k fragments fragment with
  | start =>
    exact h.follows_at hplace (Fragment.start_zero expansions)
      ⟨[], .start, .nil (pools 0) scope.registers⟩
  | @step before here limbs code' hbefore hget hnext hahead ih =>
    rcases Fragment.link_cases hget with ⟨offset', k', fragments', fragment', hplace', rfl⟩ |
      ⟨rfl, rfl⟩
    · obtain ⟨code, hcode, hunfolds⟩ := h.code_of_place hplace'
      obtain ⟨hterm, -, hcase⟩ := h.routed.next_cases hlen hplace' hcode hunfolds.branches hnext
      have hfollows := ih hplace'
      -- the fragment adds what it writes to the way
      have hwritten : Follows scope instruction pools offset' (fragments'.take (k' + 1))
          (limbs ++ (Fragment.settle expansions fragment' before).writes) := by
        obtain ⟨written, hway', htracks⟩ := hfollows
        have hwrite := htracks.write fragment'.code.writes
        rw [Fragment.writes_settle, List.take_add_one, hplace'.get]
        refine ⟨written, hway', ?_⟩
        simpa [Fragment.codes, allWrites] using hwrite
      rcases hcase with rfl | ⟨-, rfl⟩ | ⟨distance, hskip, hlt, hsucc, rfl⟩
      · -- the next fragment is in the same expansion, or the expansion is over
        rcases Nat.lt_or_ge (k' + 1) fragments'.length with hin | hover
        · have hplace'' : Fragment.Place expansions (before + 1) offset' (k' + 1) fragments' _ :=
            ⟨hplace'.expansion,
              List.getElem?_eq_getElem hin, by rw [hplace'.here_eq, Nat.add_assoc]⟩
          obtain ⟨rfl, rfl⟩ := hplace.unique hplace''
          have hexp := hplace.expansion
          rw [hplace'.expansion] at hexp
          cases hexp
          exact hwritten
        · rw [List.take_of_length_le hover] at hwritten
          refine h.follows_at hplace ?_ (h.follows_next hcode hunfolds hterm hwritten)
          have := hplace'.lt_length
          rw [Fragment.start_succ hplace'.expansion, hplace'.here_eq]
          omega
      · have hlt := hplace.lt_flatten
        omega
      · refine h.follows_at hplace rfl ?_
        have hquiet : (Fragment.settle expansions fragment' before).writes = [] := by
          rw [Fragment.writes_settle, Microcode.writes,
            hunfolds.branches.quiet (by rw [hskip]; rfl) fragment' hplace'.mem]
          rfl
        rw [hquiet, List.append_nil]
        exact h.follows_branch hcode hunfolds hskip hlt hsucc hfollows
    · cases hnext

/-- No microcode of a split instruction is in conflict with those before it. -/
theorem settles_link (h : instruction.Unfolded scope pools expansions)
    (hlen : (Fragment.link expansions).length < Word.modulus) {code' : Microcode}
    (hget : (Fragment.link expansions)[here]? = some code') :
    Instruction.Settles (Fragment.link expansions) here code' := by
  rcases Fragment.link_cases hget with ⟨offset, k, fragments, fragment, hplace, rfl⟩ |
    ⟨rfl, rfl⟩
  · obtain ⟨code, hcode, hunfolds⟩ := h.code_of_place hplace
    obtain ⟨hreads, hwrites⟩ := h.settles hcode
    have hknown := h.known hcode
    have hget : (Fragment.codes fragments)[k]? = some fragment.code := by
      rw [Fragment.codes, List.getElem?_map, hplace.get]
      rfl
    have htake : (Fragment.codes fragments).take k = Fragment.codes (fragments.take k) :=
      (List.map_take ..).symm
    refine ⟨fun id hid limbs limbs' hway hway' hwritten => ?_,
      fun id hid limbs hway hwritten => ?_⟩
    · obtain ⟨written, hfirst, htracks⟩ := h.follows hlen hway hplace
      obtain ⟨written', hsecond, htracks'⟩ := h.follows hlen hway' hplace
      rw [Fragment.reads_settle] at hid
      have hread := hunfolds.ordered.reads_subset hget hid
      rw [htake] at hread
      rcases List.mem_append.1 hread with hread | hsofar
      · obtain ⟨r, hr, hlimb⟩ := List.mem_flatMap.1 hread
        have hdecl := hknown r (List.mem_append_left _ hr)
        rw [htracks.limb_iff r hdecl id hlimb] at hwritten
        rw [htracks'.limb_iff r hdecl id hlimb]
        exact hwritten.imp_right (hreads r hr written written' hfirst hsecond)
      · exact htracks'.kept hsofar
    · obtain ⟨written, hfirst, htracks⟩ := h.follows hlen hway hplace
      rw [Fragment.writes_settle] at hid
      have hsofar : id ∉ allWrites (Fragment.codes (fragments.take k)) := by
        rw [← htake]
        exact Microcode.not_mem_allWrites_take hunfolds.nodup hget hid
      have hmem : id ∈ allWrites (Fragment.codes fragments) :=
        List.mem_flatMap.2 ⟨_, List.mem_of_getElem? hget, hid⟩
      rcases hunfolds.only id hmem with hlimb | hfresh
      · obtain ⟨r, hr, hlimb⟩ := List.mem_flatMap.1 hlimb
        have hdecl := hknown r (List.mem_append_right _ hr)
        rcases (htracks.limb_iff r hdecl id hlimb).1 hwritten with hid' | hr'
        · exact hsofar hid'
        · exact hwrites r hr written hfirst hr'
      · rcases htracks.declared id hwritten with hdecl | hid'
        · rw [hdecl] at hfresh
          cases hfresh
        · exact hsofar hid'
  · exact ⟨by simp [Microcode.reads, Microcode.operands], by simp [Microcode.writes,
      Microcode.targets]⟩

/-- **A split instruction is refused only for a bandwidth.** -/
theorem failsOnly_validate (h : instruction.Unfolded scope pools expansions) {pool : Pool}
    {scope' : Scope} (hlen : (Fragment.link expansions).length < Word.modulus)
    (hext : (pools instruction.length).Extends pool) (hscope : scope.SplitTo pool scope') :
    FailsOnly ValidationError.IsBandwidth
      (Instruction.validate scope' (Fragment.link expansions)) := by
  apply Instruction.failsOnly_validate
  · have hne := (Instruction.validate_ok_iff.1 h.valid).1
    have hbody := Fragment.length_flatten_le expansions
    have hstart := h.routed.start_lt (List.length_pos_iff.2 hne)
    exact List.ne_nil_of_length_pos (by omega)
  · intro code' hmem
    obtain ⟨here, hget⟩ := List.getElem?_of_mem hmem
    rcases Fragment.link_cases hget with ⟨offset, k, fragments, fragment, hplace, rfl⟩ |
      ⟨rfl, rfl⟩
    · obtain ⟨code, hcode, hunfolds⟩ := h.code_of_place hplace
      have hgrown := (h.pools_mono (List.getElem?_eq_some_iff.1 hcode).1 (Nat.le_refl _)).trans hext
      exact Fragment.acceptable_settle expansions here
        (hunfolds.acceptable hgrown hscope fragment hplace.mem)
    · exact ⟨0, rfl⟩
  · exact h.flows_link hlen
  · exact fun here code' hget => h.settles_link hlen hget

end Instruction.Unfolded

end LimbMachine
