import LimbMachine.Proofs.Split.Acceptance
import LimbMachine.Proofs.Split.Candor

/-!
# What a split routine vouches for

A routine is not checked before it is split; the split routine is. Ways through an instruction go
through its fragments too (`Instruction.Vouched.lift`), and a register has been written on such a
way exactly if its limbs have been. So a split instruction that is accepted vouches for the
instruction, up to what splitting loses: the faults of single microcodes that `Microcode.Candid`
excludes, a register that no fragment reads, targets given twice where control never comes, and an
end of the instruction that is hidden by the failure for its guards. `Instruction.Candid` says that
there are no such faults. A routine that splits is accepted if and only if it is candid
(`Routine.validate_iff_candid`).
-/

namespace LimbMachine

open Instruction (Way)
open Microcode (allReads allWrites Straight)

/-! ## Ways through fragments -/

theorem Microcode.allWrites_take_succ {codes : List Microcode} {k : Nat} {code : Microcode}
    (h : codes[k]? = some code) :
    allWrites (codes.take (k + 1)) = allWrites (codes.take k) ++ code.writes := by
  rw [List.take_add_one, h, allWrites, List.flatMap_append, Option.toList_some,
    List.flatMap_singleton]

/-- Microcodes that write nothing twice, each on its own and after the others, write nothing
twice. -/
theorem Microcode.nodup_allWrites {codes : List Microcode}
    (h : ∀ (k : Nat) (code : Microcode), codes[k]? = some code →
      code.writes.Nodup ∧ ∀ id ∈ code.writes, id ∉ allWrites (codes.take k)) :
    (allWrites codes).Nodup := by
  have htake : ∀ k ≤ codes.length, (allWrites (codes.take k)).Nodup := by
    intro k hk
    induction k with
    | zero => exact List.nodup_nil
    | succ k ih =>
      have hget := List.getElem?_eq_getElem hk
      obtain ⟨hnd, hfresh⟩ := h k _ hget
      rw [allWrites_take_succ hget]
      exact (ih (Nat.le_of_succ_le hk)).append hnd fun id hid hid' => hfresh id hid' hid
  simpa using htake codes.length (Nat.le_refl _)

namespace Fragment

variable {expansions : List (List Fragment)} {fragments : List Fragment} {fragment : Fragment}
  {here offset : Nat} {scope : Scope}

@[simp] theorem isTerminal_settle (expansions : List (List Fragment)) (fragment : Fragment)
    (here : Nat) : (settle expansions fragment here).isTerminal = fragment.code.isTerminal := by
  unfold settle
  split
  · exact Microcode.isTerminal_withSkip _ _
  · rfl

theorem rule_settle_iff :
    (settle expansions fragment here).Rule scope ↔ fragment.code.Rule scope := by
  unfold settle
  split
  · exact Microcode.rule_withSkip_iff _
  · exact Iff.rfl

theorem succ_mem_successors (hterm : fragment.code.isTerminal = false)
    (hlt : here + 1 < Word.modulus) :
    here + 1 ∈ (settle expansions fragment here).successors here := by
  rw [Microcode.mem_successors_iff, isTerminal_settle]
  exact ⟨hterm, .inl (Word.add_eq hlt).symm⟩

theorem target_mem_successors {b : Branch} (hbranch : fragment.branch = some b)
    (hskip : fragment.code.skipDistance.isSome = true) (hle : here + 1 ≤ target expansions b)
    (hlt : target expansions b < Word.modulus) :
    target expansions b ∈ (settle expansions fragment here).successors here := by
  obtain ⟨distance, hdistance⟩ := Option.isSome_iff_exists.1 hskip
  rw [Microcode.mem_successors_iff, isTerminal_settle]
  refine ⟨Microcode.isTerminal_of_skipDistance hskip, ?_⟩
  rcases Nat.eq_or_lt_of_le hle with heq | hgt
  · rw [← heq] at hlt ⊢
    exact .inl (Word.add_eq hlt).symm
  · refine .inr ⟨target expansions b - (here + 1), ?_, Nat.sub_pos_of_lt hgt, ?_⟩
    · rw [settle, hbranch]
      simp only [Microcode.skipDistance_withSkip, hdistance, Option.map_some]
    · rw [Microcode.landing_eq_add (by omega), Nat.add_sub_cancel' hle]

theorem start_le_length (expansions : List (List Fragment)) (offset : Nat) :
    start expansions offset ≤ expansions.flatten.length :=
  ((List.take_sublist offset expansions).flatten).length_le

theorem length_link_le (expansions : List (List Fragment)) :
    (link expansions).length ≤ expansions.flatten.length + 1 := by
  simp only [link, List.length_append, List.length_map, List.length_zipIdx]
  split <;> simp

theorem length_starts (base : Nat) (expansions : List (List Fragment)) :
    (starts base expansions).length = expansions.length + 1 := by
  induction expansions generalizing base with
  | nil => rfl
  | cons expansion rest ih => rw [starts, List.length_cons, ih, List.length_cons]

/-- A branch lands at the start of an expansion or past the end. -/
theorem target_cases {landing : Nat}
    (hsize : landing + expansions.flatten.length < Word.modulus) :
    (landing ≤ expansions.length ∧
        target expansions (.offset landing) = start expansions landing) ∨
      (expansions.length < landing ∧
        expansions.flatten.length < target expansions (.offset landing) ∧
        target expansions (.offset landing) < Word.modulus) := by
  rcases Nat.lt_or_ge expansions.length landing with hlt | hle
  · have hnone : (starts 0 expansions)[landing]? = none := by
      rw [List.getElem?_eq_none_iff, length_starts]
      omega
    have htarget : target expansions (.offset landing) =
        expansions.flatten.length + (landing - expansions.length) := by
      simp only [target, hnone, Option.getD_none]
      exact Word.add_eq (by omega)
    exact .inr ⟨hlt, by omega, by omega⟩
  · exact .inl ⟨hle, target_offset hle⟩

/-- A way to the first fragment of a microcode goes on through its fragments. -/
theorem way_through (hlen : (link expansions).length < Word.modulus)
    (hget : expansions[offset]? = some fragments)
    (hthrough : ∀ code ∈ codes fragments, code.isTerminal = false) {limbs : List RegId}
    (hway : Way (link expansions) (start expansions offset) limbs) {k : Nat}
    (hk : k ≤ fragments.length) :
    Way (link expansions) (start expansions offset + k)
      (limbs ++ allWrites ((codes fragments).take k)) := by
  induction k with
  | zero => simpa using hway
  | succ k ih =>
    have hplace : Place expansions (start expansions offset + k) offset k fragments fragments[k] :=
      ⟨hget, List.getElem?_eq_getElem hk, rfl⟩
    have hlt := hplace.lt_flatten
    have hbody := length_flatten_le expansions
    have hnext : start expansions offset + k + 1 ∈
        (settle expansions fragments[k] (start expansions offset + k)).successors
          (start expansions offset + k) :=
      succ_mem_successors (hthrough _ (List.mem_map_of_mem hplace.mem)) (by omega)
    have hstep := (ih (Nat.le_of_succ_le hk)).step hplace.link_eq hnext (Nat.lt_succ_self _)
    have hcode : (codes fragments)[k]? = some fragments[k].code := by
      rw [List.getElem?_map, hplace.get, Option.map_some]
    rw [writes_settle, List.append_assoc, ← Microcode.allWrites_take_succ hcode] at hstep
    exact hstep

end Fragment

/-! ## Instructions -/

/-- Splitting into limbs of `width` bits loses no reason to refuse the instruction. -/
structure Instruction.Candid (width : Nat) (scope : Scope) (instruction : Instruction) : Prop where
  codes : ∀ code ∈ instruction, code.Candid width scope
  /-- Where control never comes, limbs may be written twice. -/
  stored : ∀ (offset : Nat) (code : Microcode), instruction[offset]? = some code →
    code.Wide width scope.registers → (∀ written, ¬ Way instruction offset written) →
    code.writes.Nodup
  /-- No fragment shows that a register with no visible limb is read. -/
  read : ∀ (offset : Nat) (code : Microcode), instruction[offset]? = some code →
    ∀ id ∈ code.reads, id ∉ code.visible width scope.registers →
    ∀ written written', Way instruction offset written → Way instruction offset written' →
      id ∈ written → id ∈ written'
  /-- Control that goes past the end comes to the failure for the guards. -/
  ends : (∃ code ∈ instruction, code.Drops width scope.registers) →
    ∀ (offset : Nat) (code : Microcode), instruction[offset]? = some code →
      instruction.length ∉ code.successors offset
  /-- Past a microcode without fragments control goes where it went before it. -/
  last : ∀ code, instruction.getLast? = some code → ¬ code.Vanishes width scope.registers

/-- Registers of `rs` have been written exactly if their limbs have been. -/
def Pool.Mirrors (pool : Pool) (rs : RegisterFile) (written limbs : List RegId) : Prop :=
  ∀ id, rs.declares id = true → ∀ limb ∈ pool.group id, limb ∈ limbs ↔ id ∈ written

/-- A candid instruction whose fragments make up an accepted instruction. -/
structure Instruction.Vouched (scope scope' : Scope) (pool : Pool) (instruction : Instruction)
    (expansions : List (List Fragment)) : Prop where
  expands : instruction.Expands scope.registers pool expansions
  accepted : Instruction.validate scope' (Fragment.link expansions) = .ok ()
  splitTo : scope.SplitTo pool scope'
  found : ∀ number, (scope'.buses.find? fun b => b.id == some number).isSome = true →
    (scope.buses.find? fun b => b.id == some number).isSome = true
  unbounded : Word.top ≤ scope.field.bandwidth
  width_lt : ∀ id, scope.registers.widthOf id < Word.modulus
  measured : ∀ code ∈ instruction, code.Measured scope.registers
  addressed : ∀ {offset : Nat} {code : Microcode}, instruction[offset]? = some code →
    offset + 1 + code.skipDistance.getD 0 + (Fragment.link expansions).length < Word.modulus
  candid : instruction.Candid pool.width scope

namespace Instruction.Vouched

variable {scope scope' : Scope} {pool : Pool} {instruction : Instruction}
  {expansions : List (List Fragment)} {fragments : List Fragment} {offset : Nat} {code : Microcode}
  {written limbs : List RegId}

theorem flows_link (h : instruction.Vouched scope scope' pool expansions) :
    Instruction.Flows (Fragment.link expansions) :=
  (Instruction.validate_ok_iff.1 h.accepted).2.2.1

theorem settles_link (h : instruction.Vouched scope scope' pool expansions) {here : Nat}
    {code' : Microcode} (hget : (Fragment.link expansions)[here]? = some code') :
    Instruction.Settles (Fragment.link expansions) here code' :=
  checkWrites_ok_iff.1 (Instruction.validate_ok_iff.1 h.accepted).2.2.2 here code' hget

theorem rule (h : instruction.Vouched scope scope' pool expansions)
    (hget : expansions[offset]? = some fragments) :
    ∀ fragment ∈ fragments, fragment.code.Rule scope' := by
  intro fragment hmem
  obtain ⟨k, hk⟩ := List.mem_iff_getElem?.1 hmem
  have hplace : Fragment.Place expansions _ offset k fragments fragment := ⟨hget, hk, rfl⟩
  have hvalid :=
    (Instruction.validate_ok_iff.1 h.accepted).2.1 _ (List.mem_of_getElem? hplace.link_eq)
  exact Fragment.rule_settle_iff.1 (Microcode.validate_ok_iff.1 hvalid).2

theorem measured_at (h : instruction.Vouched scope scope' pool expansions)
    (hcode : instruction[offset]? = some code) : code.Measured scope.registers :=
  h.measured code (List.mem_of_getElem? hcode)

theorem length_lt (h : instruction.Vouched scope scope' pool expansions)
    (hcode : instruction[offset]? = some code) : (Fragment.link expansions).length < Word.modulus :=
  Nat.lt_of_le_of_lt (Nat.le_add_left _ _) (h.addressed hcode)

theorem straight (h : instruction.Vouched scope scope' pool expansions)
    (hcode : instruction[offset]? = some code)
    (hexpand : code.ExpandsTo scope.registers pool offset fragments)
    (hterm : code.isTerminal = false) :
    Straight ((code.visible pool.width scope.registers).flatMap pool.group)
      (code.writes.flatMap pool.group) (Fragment.codes fragments) :=
  hexpand.straight h.width_lt (h.measured_at hcode).sized
    (h.candid.codes code (List.mem_of_getElem? hcode)).idle hterm

/-- Along a way through the fragments of a microcode, each of them is settled. -/
theorem settles_through (h : instruction.Vouched scope scope' pool expansions)
    (hcode : instruction[offset]? = some code) (hget : expansions[offset]? = some fragments)
    (hthrough : ∀ code ∈ Fragment.codes fragments, code.isTerminal = false)
    (hway : Way (Fragment.link expansions) (Fragment.start expansions offset) limbs) {k : Nat}
    {fragment : Fragment} (hk : fragments[k]? = some fragment) :
    Way (Fragment.link expansions) (Fragment.start expansions offset + k)
        (limbs ++ allWrites ((Fragment.codes fragments).take k)) ∧
      Instruction.Settles (Fragment.link expansions) (Fragment.start expansions offset + k)
        (Fragment.settle expansions fragment (Fragment.start expansions offset + k)) := by
  have hplace : Fragment.Place expansions _ offset k fragments fragment := ⟨hget, hk, rfl⟩
  exact ⟨Fragment.way_through (h.length_lt hcode) hget hthrough hway
    (Nat.le_of_lt hplace.lt_length), h.settles_link hplace.link_eq⟩

/-- What a fragment writes has not been written before, neither on the way to the microcode nor by
another of its fragments. -/
theorem fresh (h : instruction.Vouched scope scope' pool expansions)
    (hcode : instruction[offset]? = some code) (hget : expansions[offset]? = some fragments)
    (hthrough : ∀ code ∈ Fragment.codes fragments, code.isTerminal = false)
    (hway : Way (Fragment.link expansions) (Fragment.start expansions offset) limbs) :
    (allWrites (Fragment.codes fragments)).Nodup ∧
      ∀ id ∈ allWrites (Fragment.codes fragments), id ∉ limbs := by
  have hsettled : ∀ (k : Nat) (code' : Microcode), (Fragment.codes fragments)[k]? = some code' →
      code'.writes.Nodup ∧
        ∀ id ∈ code'.writes, id ∉ limbs ++ allWrites ((Fragment.codes fragments).take k) := by
    intro k code' hk
    rw [List.getElem?_map, Option.map_eq_some_iff] at hk
    obtain ⟨fragment, hk, rfl⟩ := hk
    obtain ⟨hreach, -, hsettles⟩ := h.settles_through hcode hget hthrough hway hk
    refine ⟨Microcode.nodup_writes (h.rule hget fragment (List.mem_of_getElem? hk)),
      fun id hid => ?_⟩
    exact hsettles id (by rwa [Fragment.writes_settle]) _ hreach
  constructor
  · refine Microcode.nodup_allWrites fun k code' hk => ⟨(hsettled k code' hk).1,
      fun id hid hmem => ?_⟩
    exact (hsettled k code' hk).2 id hid (List.mem_append_right _ hmem)
  · intro id hid hmem
    obtain ⟨code', hcode', hwrite⟩ := List.mem_flatMap.1 hid
    obtain ⟨k, hk⟩ := List.mem_iff_getElem?.1 hcode'
    exact (hsettled k code' hk).2 id hwrite (List.mem_append_left _ hmem)

theorem valid_of_nodup (h : instruction.Vouched scope scope' pool expansions)
    (hcode : instruction[offset]? = some code)
    (hnd : code.Wide pool.width scope.registers → code.writes.Nodup) :
    code.validate scope = .ok () := by
  obtain ⟨fragments, hget, hexpand⟩ := h.expands.expand hcode
  have hcandid := h.candid.codes code (List.mem_of_getElem? hcode)
  have hacceptable :=
    hexpand.acceptable h.splitTo h.found h.width_lt (h.measured_at hcode) hcandid hnd
    (h.rule hget)
  exact hacceptable.validate h.width_lt (h.measured_at hcode).compact h.unbounded

/-- A microcode that control comes to is accepted. -/
theorem valid_of_way (h : instruction.Vouched scope scope' pool expansions)
    (hcode : instruction[offset]? = some code)
    (hway : Way (Fragment.link expansions) (Fragment.start expansions offset) limbs) :
    code.validate scope = .ok () := by
  refine h.valid_of_nodup hcode fun hwide => ?_
  obtain ⟨fragments, hget, hexpand⟩ := h.expands.expand hcode
  have hstraight := h.straight hcode hexpand hwide.isTerminal
  have hknows : ∀ id ∈ code.writes, scope.registers.Knows id := fun id hid =>
    .of_declares (hexpand.known id (List.mem_append_right _ hid))
  exact h.splitTo.splits.nodup_of_lines hknows
    (hstraight.nodup (h.fresh hcode hget hstraight.through hway).1)

/-- After all fragments of a microcode the limbs of what it writes have been written. -/
theorem mirrors_step (h : instruction.Vouched scope scope' pool expansions)
    (hcode : instruction[offset]? = some code)
    (hexpand : code.ExpandsTo scope.registers pool offset fragments)
    (hterm : code.isTerminal = false) (hvalid : code.validate scope = .ok ())
    (hmirrors : pool.Mirrors scope.registers written limbs) :
    pool.Mirrors scope.registers (written ++ code.writes)
      (limbs ++ allWrites (Fragment.codes fragments)) := by
  intro id hid limb hlimb
  rw [List.mem_append, List.mem_append, hmirrors id hid limb hlimb]
  refine or_congr_right ⟨fun hwrite => ?_, fun hwrite => ?_⟩
  · exact hexpand.mem_writes hvalid (h.measured_at hcode) h.width_lt hid hlimb hwrite
  · exact (h.straight hcode hexpand hterm).stored.subset (List.mem_flatMap.2
      ⟨id, hwrite, hlimb⟩)

theorem landing_lt (h : instruction.Vouched scope scope' pool expansions) {distance : Nat}
    (hcode : instruction[offset]? = some code) (hskip : code.skipDistance = some distance) :
    offset + 1 + distance + expansions.flatten.length < Word.modulus := by
  have hland := h.addressed hcode
  rw [hskip, Option.getD_some] at hland
  have hbody := Fragment.length_flatten_le expansions
  omega

/-- The fragments of a comparison go where the comparison goes. -/
theorem branch_step (h : instruction.Vouched scope scope' pool expansions) {distance : Nat}
    (hcode : instruction[offset]? = some code) (hskip : code.skipDistance = some distance) :
    ∃ fragment, (Fragment.link expansions)[Fragment.start expansions offset]? =
        some (Fragment.settle expansions fragment (Fragment.start expansions offset)) ∧
      fragment.code.writes = [] ∧
      Fragment.start expansions offset <
        Fragment.target expansions (.offset (offset + 1 + distance)) ∧
      Fragment.target expansions (.offset (offset + 1 + distance)) ∈
        (Fragment.settle expansions fragment (Fragment.start expansions offset)).successors
          (Fragment.start expansions offset) := by
  obtain ⟨fragments, hget, hexpand⟩ := h.expands.expand hcode
  have hfirst : ∃ fragment, fragments[0]? = some fragment := by
    cases fragments with
    | cons fragment rest => exact ⟨fragment, rfl⟩
    | nil =>
      have hcandid := h.candid.codes code (List.mem_of_getElem? hcode)
      have hsum := (hexpand.vanishes h.width_lt (h.measured_at hcode).sized hcandid.idle).2.2
      cases code with
      | skip => cases hsum
      | skipIf => cases hsum
      | _ => cases hskip
  obtain ⟨fragment, hfragment⟩ := hfirst
  have hplace : Fragment.Place expansions (Fragment.start expansions offset) offset 0 fragments
      fragment := ⟨hget, hfragment, rfl⟩
  obtain ⟨hbranch, hbranches⟩ := hexpand.branch hskip fragment hplace.mem
  have hland := h.addressed hcode
  rw [hskip, Option.getD_some] at hland
  rw [Microcode.landing_eq_add (by omega)] at hbranch
  have hbounds : Fragment.start expansions offset <
        Fragment.target expansions (.offset (offset + 1 + distance)) ∧
      Fragment.target expansions (.offset (offset + 1 + distance)) < Word.modulus := by
    have hbody := Fragment.length_flatten_le expansions
    have hafter := hplace.lt_start_succ
    have hend := Fragment.start_le_length expansions (offset + 1)
    rcases Fragment.target_cases (landing_lt h hcode hskip) with ⟨-, htarget⟩ |
      ⟨-, hpast, hlt⟩
    · have hmono : Fragment.start expansions (offset + 1) ≤
          Fragment.start expansions (offset + 1 + distance) :=
            Fragment.start_mono (Nat.le_add_right _ _)
      have hle := Fragment.start_le_length expansions (offset + 1 + distance)
      omega
    · omega
  refine ⟨fragment, hplace.link_eq, ?_, hbounds.1,
    Fragment.target_mem_successors hbranch hbranches hbounds.1 hbounds.2⟩
  rw [Microcode.writes, Microcode.targets_of_skipDistance hbranches, List.filter_nil]

/-- Every way through an instruction goes through its fragments as well. -/
theorem lift (h : instruction.Vouched scope scope' pool expansions)
    (hway : Way instruction offset written) (hle : offset ≤ instruction.length) :
    ∃ limbs, Way (Fragment.link expansions) (Fragment.start expansions offset) limbs ∧
      pool.Mirrors scope.registers written limbs := by
  induction hway with
  | start => exact ⟨[], .start, fun id _ limb _ => by simp⟩
  | @step offset next written code before hcode hnext hahead ih =>
    obtain ⟨limbs, hreach, hmirrors⟩ := ih (Nat.le_of_lt (List.getElem?_eq_some_iff.1 hcode).1)
    have hvalid := h.valid_of_way hcode hreach
    obtain ⟨fragments, hget, hexpand⟩ := h.expands.expand hcode
    have hland := h.addressed hcode
    obtain ⟨hterm, hnext | ⟨distance, hskip, hpos, hnext⟩⟩ :=
      Microcode.mem_successors_iff.1 hnext
    · rw [Word.add_eq (by omega)] at hnext
      subst hnext
      have hthrough := (h.straight hcode hexpand hterm).through
      have hafter := Fragment.way_through (h.length_lt hcode) hget hthrough hreach (Nat.le_refl _)
      rw [← Fragment.start_succ hget, List.take_of_length_le (by simp)] at hafter
      exact ⟨_, hafter, h.mirrors_step hcode hexpand hterm hvalid hmirrors⟩
    · obtain ⟨fragment, hfragment, hwrites, hlater, hmem⟩ := h.branch_step hcode hskip
      rw [hskip, Option.getD_some] at hland
      rw [Microcode.landing_eq_add (by omega)] at hnext
      subst hnext
      rw [Fragment.target_offset (h.expands.length_eq ▸ hle)] at hlater hmem
      have hwritten : code.writes = [] := by
        rw [Microcode.writes, Microcode.targets_of_skipDistance (by rw [hskip]; rfl),
          List.filter_nil]
      refine ⟨_, hreach.step hfragment hmem hlater, ?_⟩
      rw [Fragment.writes_settle, hwrites, hwritten, List.append_nil, List.append_nil]
      exact hmirrors

theorem valid (h : instruction.Vouched scope scope' pool expansions)
    (hcode : instruction[offset]? = some code) : code.validate scope = .ok () := by
  by_cases hreached : ∃ written, Way instruction offset written
  · obtain ⟨written, hway⟩ := hreached
    obtain ⟨limbs, hway, -⟩ := h.lift hway (Nat.le_of_lt (List.getElem?_eq_some_iff.1 hcode).1)
    exact h.valid_of_way hcode hway
  · exact h.valid_of_nodup hcode fun hwide =>
      h.candid.stored offset code hcode hwide fun written hway => hreached ⟨written, hway⟩

/-- The failure at the end of the fragments is there for a limb that is left out. -/
theorem drops_of_length_lt (h : instruction.Vouched scope scope' pool expansions)
    (hlt : expansions.flatten.length < (Fragment.link expansions).length) :
    ∃ code ∈ instruction, code.Drops pool.width scope.registers := by
  have htrailer : ∃ fragment ∈ expansions.flatten, fragment.branch = some .trailer := by
    by_contra hnone
    have hany : (expansions.flatten.any fun f => f.branch = some .trailer) = false := by
      rw [List.any_eq_false]
      intro fragment hmem hbranch
      exact hnone ⟨fragment, hmem, of_decide_eq_true hbranch⟩
    simp [Fragment.link, hany] at hlt
  obtain ⟨fragment, hmem, hbranch⟩ := htrailer
  obtain ⟨fragments, hfragments, hmem⟩ := List.mem_flatten.1 hmem
  obtain ⟨offset, hget⟩ := List.mem_iff_getElem?.1 hfragments
  have hlt := (List.getElem?_eq_some_iff.1 hget).1
  rw [h.expands.length_eq] at hlt
  have hcode := List.getElem?_eq_getElem hlt
  obtain ⟨fragments', hget', hexpand⟩ := h.expands.expand hcode
  rw [hget] at hget'
  cases hget'
  exact ⟨_, List.mem_of_getElem? hcode, hexpand.drops h.width_lt hmem hbranch⟩

theorem flows (h : instruction.Vouched scope scope' pool expansions) : instruction.Flows := by
  intro offset code hcode next hnext
  have hlt := (List.getElem?_eq_some_iff.1 hcode).1
  have hlength := h.expands.length_eq
  have hland := h.addressed hcode
  by_contra hge
  -- no fragment goes on where the fragments end, unless a failure stands there
  have hend : next = instruction.length →
      ¬ expansions.flatten.length < (Fragment.link expansions).length := by
    rintro rfl hmore
    exact h.candid.ends (h.drops_of_length_lt hmore) offset code hcode hnext
  obtain ⟨hterm, hsucc | ⟨distance, hskip, -, hsucc⟩⟩ :=
    Microcode.mem_successors_iff.1 hnext
  · rw [Word.add_eq (by omega)] at hsucc
    have hlast : offset + 1 = instruction.length := by omega
    obtain ⟨fragments, hget, hexpand⟩ := h.expands.expand hcode
    have hcandid := h.candid.codes code (List.mem_of_getElem? hcode)
    rcases List.eq_nil_or_concat fragments with rfl | ⟨before, fragment, rfl⟩
    · have hvanishes := hexpand.vanishes h.width_lt (h.measured_at hcode).sized hcandid.idle
      refine h.candid.last code ?_ hvanishes
      rw [List.getLast?_eq_getElem?, ← hlast, Nat.add_sub_cancel, hcode]
    · have hplace :
          Fragment.Place expansions (Fragment.start expansions offset + before.length) offset
            before.length (before.concat fragment) fragment := ⟨hget, by simp, rfl⟩
      have hthrough := (h.straight hcode hexpand hterm).through _ (List.mem_map_of_mem hplace.mem)
      have hfinish := Fragment.start_succ hget
      rw [hlast, ← hlength, Fragment.start_length, List.length_concat] at hfinish
      have hbody := Fragment.length_flatten_le expansions
      have hgo := h.flows_link _ _ hplace.link_eq _
        (Fragment.succ_mem_successors hthrough (by omega))
      exact hend (by omega) (by omega)
  · obtain ⟨fragment, hfragment, -, -, hmem⟩ := h.branch_step hcode hskip
    have hgo := h.flows_link _ _ hfragment _ hmem
    rw [hskip, Option.getD_some] at hland
    rw [Microcode.landing_eq_add (by omega)] at hsucc
    rcases Fragment.target_cases (h.landing_lt hcode hskip) with ⟨hle, htarget⟩ |
      ⟨hgt, hpast, -⟩
    · have hlast : offset + 1 + distance = expansions.length := by omega
      rw [htarget, hlast, Fragment.start_length] at hgo
      exact hend (by omega) hgo
    · have hlink := Fragment.length_link_le expansions
      omega

/-- What a microcode writes was not written on a way to it: its limbs were not. -/
theorem not_written (h : instruction.Vouched scope scope' pool expansions)
    (hcode : instruction[offset]? = some code) (hterm : code.isTerminal = false) {id : RegId}
    (hid : id ∈ code.writes) (hway : Way instruction offset written) : id ∉ written := by
  intro hmem
  obtain ⟨fragments, hget, hexpand⟩ := h.expands.expand hcode
  have hstraight := h.straight hcode hexpand hterm
  have hdeclared := hexpand.known id (List.mem_append_right _ hid)
  obtain ⟨limb, hlimb⟩ := h.splitTo.splits.exists_limb (.of_declares hdeclared)
  obtain ⟨limbs, hreach, hmirrors⟩ :=
    h.lift hway (Nat.le_of_lt (List.getElem?_eq_some_iff.1 hcode).1)
  have hstored := hstraight.stored.subset (List.mem_flatMap.2 ⟨id, hid, hlimb⟩)
  exact (h.fresh hcode hget hstraight.through hreach).2 limb hstored
    ((hmirrors id hdeclared limb hlimb).2 hmem)

/-- A register with a limb that some fragment reads was written on all ways or on none. -/
theorem written_of_visible (h : instruction.Vouched scope scope' pool expansions)
    (hcode : instruction[offset]? = some code) (hterm : code.isTerminal = false) {id : RegId}
    (hid : id ∈ code.reads) (hvisible : id ∈ code.visible pool.width scope.registers)
    {written' : List RegId} (hway : Way instruction offset written)
    (hway' : Way instruction offset written') (hmem : id ∈ written) : id ∈ written' := by
  have hle := Nat.le_of_lt (List.getElem?_eq_some_iff.1 hcode).1
  have hsplits := h.splitTo.splits
  obtain ⟨fragments, hget, hexpand⟩ := h.expands.expand hcode
  have hstraight := h.straight hcode hexpand hterm
  have hdeclared := hexpand.known id (List.mem_append_left _ hid)
  obtain ⟨limb, hlimb⟩ := hsplits.exists_limb (.of_declares hdeclared)
  obtain ⟨limbs, hreach, hmirrors⟩ := h.lift hway hle
  obtain ⟨limbs', hreach', hmirrors'⟩ := h.lift hway' hle
  -- the fragment that reads the limb finds it written on both ways
  have hused := RegisterFile.isUsed_of_declares (hsplits.declares_group hdeclared limb hlimb)
  have hread := hstraight.read limb (List.mem_flatMap.2 ⟨id, hvisible, hlimb⟩) hused
  obtain ⟨code', hcode', hread⟩ := List.mem_flatMap.1 hread
  obtain ⟨k, hk⟩ := List.mem_iff_getElem?.1 hcode'
  rw [List.getElem?_map, Option.map_eq_some_iff] at hk
  obtain ⟨fragment, hk, rfl⟩ := hk
  obtain ⟨hat, hagree, -⟩ := h.settles_through hcode hget hstraight.through hreach hk
  obtain ⟨hat', -⟩ := h.settles_through hcode hget hstraight.through hreach' hk
  have hwritten := (hmirrors id hdeclared limb hlimb).2 hmem
  have hboth := hagree limb (by rwa [Fragment.reads_settle]) _ _ hat hat'
    (List.mem_append_left _ hwritten)
  rcases List.mem_append.1 hboth with hbefore | hwithin
  · exact (hmirrors' id hdeclared limb hlimb).1 hbefore
  · -- no fragment before this one wrote it: it would have been written twice
    obtain ⟨earlier, hmem, hwrite⟩ := List.mem_flatMap.1 hwithin
    have hwithin := List.mem_flatMap.2 ⟨earlier, List.mem_of_mem_take hmem, hwrite⟩
    exact absurd hwritten ((h.fresh hcode hget hstraight.through hreach).2 limb hwithin)

theorem settles (h : instruction.Vouched scope scope' pool expansions)
    (hcode : instruction[offset]? = some code) : instruction.Settles offset code := by
  cases hterm : code.isTerminal with
  | true =>
    obtain ⟨hreads, hwrites⟩ := Microcode.registers_of_isTerminal hterm
    constructor
    · rw [hreads]
      exact fun id hid => (nomatch hid)
    · rw [hwrites]
      exact fun id hid => (nomatch hid)
  | false =>
    constructor
    · intro id hid written written' hway hway' hmem
      by_cases hvisible : id ∈ code.visible pool.width scope.registers
      · exact h.written_of_visible hcode hterm hid hvisible hway hway' hmem
      · exact h.candid.read offset code hcode id hid hvisible written written' hway hway' hmem
    · intro id hid written hway
      exact h.not_written hcode hterm hid hway

theorem ne_nil (h : instruction.Vouched scope scope' pool expansions) : instruction ≠ [] := by
  rintro rfl
  have hnil := List.eq_nil_of_length_eq_zero h.expands.length_eq
  subst hnil
  exact (Instruction.validate_ok_iff.1 h.accepted).1 rfl

/-- An instruction that its fragments vouch for is accepted. -/
theorem validate (h : instruction.Vouched scope scope' pool expansions) :
    instruction.validate scope = .ok () := by
  refine Instruction.validate_ok_iff.2 ⟨h.ne_nil, fun code hmem => ?_, h.flows, ?_⟩
  · obtain ⟨offset, hcode⟩ := List.mem_iff_getElem?.1 hmem
    exact h.valid hcode
  · exact checkWrites_ok_iff.2 fun offset code hcode => h.settles hcode

end Instruction.Vouched

/-- An accepted instruction is candid: there is nothing to lose. -/
theorem Instruction.candid_of_validate {width : Nat} {scope : Scope} {instruction : Instruction}
    (h : instruction.validate scope = .ok ()) (hsize : instruction.length < Word.modulus) :
    instruction.Candid width scope := by
  obtain ⟨-, hcodes, hflows, hwrites⟩ := Instruction.validate_ok_iff.1 h
  have hsettles := checkWrites_ok_iff.1 hwrites
  have hends : ∀ (offset : Nat) (code : Microcode), instruction[offset]? = some code →
      instruction.length ∉ code.successors offset :=
    fun offset code hcode hmem => Nat.lt_irrefl _ (hflows offset code hcode _ hmem)
  refine ⟨fun code hmem => Microcode.candid_of_validate (hcodes code hmem), ?_, ?_,
    fun _ => hends, ?_⟩
  · intro offset code hcode _ _
    have hvalid := hcodes code (List.mem_of_getElem? hcode)
    exact Microcode.nodup_writes (Microcode.validate_ok_iff.1 hvalid).2
  · intro offset code hcode id hid _
    exact (hsettles offset code hcode).1 id hid
  · intro code hlast hvanishes
    rw [List.getLast?_eq_getElem?] at hlast
    have hlt := (List.getElem?_eq_some_iff.1 hlast).1
    have hnext : instruction.length - 1 + 1 = instruction.length := by omega
    refine hends _ code hlast (Microcode.mem_successors_iff.2 ⟨hvanishes.1.isTerminal, .inl ?_⟩)
    rw [Word.add_eq (by omega), hnext]

/-! ## Routines -/

/-- Limbs in order: the registers they were cut from are in order. -/
theorem Pool.Splits.isOrdered_of_limbs {pool : Pool} {rs : RegisterFile} (h : pool.Splits rs)
    (hpool : pool.registers.isOrdered = true) : rs.isOrdered = true := by
  rw [RegisterFile.isOrdered_iff] at hpool ⊢
  have hlimbs := (List.pairwise_flatten.1 (hpool.sublist h.limbs_first.sublist)).2
  refine (List.pairwise_map.1 hlimbs).imp fun {r r'} hle => ?_
  obtain ⟨limb, hlimb⟩ := List.exists_mem_of_ne_nil _ (Register.limbs_ne_nil h.width_pos)
  obtain ⟨limb', hlimb'⟩ := List.exists_mem_of_ne_nil _ (Register.limbs_ne_nil h.width_pos)
  have hrank := hle limb hlimb limb' hlimb'
  rwa [Register.kind_of_mem_limbs hlimb, Register.kind_of_mem_limbs hlimb'] at hrank

namespace Routine

variable {f : Routine} {field : FieldParams} {split : SplitRoutine}

/-- Splitting into limbs of `width` bits loses no reason to refuse the routine. -/
def Candid (width : Nat) (f : Routine) : Prop :=
  ∀ instruction ∈ f.code, instruction.Candid width (f.scope .unbounded)

/-- The sizes that splitting a routine takes are sizes, and so are those of what it is split
into. -/
structure Measured (f : Routine) (split : SplitRoutine) : Prop where
  sized : f.Sized
  compact : ∀ instruction ∈ f.code, ∀ code ∈ instruction, code.Compact f.registers
  weighed : ∀ instruction ∈ f.code, ∀ code ∈ instruction,
    ∀ m ∈ (code.polynomial?.getD .zero).terms, m.Weighed f.registers
  addressed : ∀ pair ∈ f.code.zip split.routine.code, ∀ entry ∈ pair.1.zipIdx,
    entry.2 + 1 + entry.1.skipDistance.getD 0 + pair.2.length < Word.modulus

/-- A routine that splits gives its buses lines that it declares, and goes over to limbs. -/
theorem splitWithLimbs_overLimbs (h : f.splitWithLimbs field = .ok split) :
    (∀ bus ∈ f.buses, ∀ line ∈ bus.lines, f.registers.declares line = true) ∧
      split.routine = f.overLimbs split.pool split.routine.code := by
  have hs := (splitOf h).splits
  obtain ⟨code, buses, -, hbuses, hroutine, -⟩ := splitWithLimbs_ok h
  have hlines : ∀ bus ∈ f.buses, ∀ line ∈ bus.lines, f.registers.declares line = true := by
    intro bus hbus
    obtain ⟨split', -, hsplit⟩ := exists_of_forall₂ (except_mapM_ok.1 hbuses) hbus
    obtain ⟨limbs, hflat, -⟩ := except_bind_ok.1 hsplit
    exact hs.declares_of_flatten hflat
  rw [hs.mapM_splitBus hlines] at hbuses
  cases hbuses
  refine ⟨hlines, ?_⟩
  rw [hroutine]
  rfl

/-- A split routine vouches for every instruction of a candid routine. -/
theorem Candid.vouched (hcandid : f.Candid field.registerWidth) (hm : f.Measured split)
    (h : f.splitWithLimbs field = .ok split) {instruction : Instruction}
    (hi : instruction ∈ f.code) :
    ∃ expansions, instruction.Vouched (f.scope .unbounded) (split.routine.scope field) split.pool
      expansions := by
  have hof := splitOf h
  obtain ⟨-, -, -, -, -, hvalid⟩ := splitWithLimbs_ok h
  obtain ⟨hlines, hroutine⟩ := splitWithLimbs_overLimbs h
  obtain ⟨pc, hpc⟩ := List.mem_iff_getElem?.1 hi
  obtain ⟨expansions, hlink, hexpands⟩ := hof.expands hpc
  have hscope : (f.scope .unbounded).SplitTo split.pool (split.routine.scope field) := by
    rw [hroutine]
    exact splitTo_overLimbs field hof.splits hof.length_eq hlines
  refine ⟨expansions, hexpands, ?_, hscope, fun number hfound => ?_, Nat.le_refl _,
    hm.sized.widthOf_lt, fun code hc => ?_, fun {offset code} hcode => ?_, ?_⟩
  · exact (validate_ok_iff.1 hvalid).2.2 _ (List.mem_of_getElem? hlink)
  · rw [hroutine] at hfound
    have hsome : (f.overLimbs split.pool split.routine.code).bus? number |>.isSome := hfound
    rw [bus?_overLimbs, Option.isSome_map] at hsome
    exact hsome
  · exact ⟨hm.sized.packed instruction hi code hc, hm.compact instruction hi code hc,
      hm.weighed instruction hi code hc⟩
  · have hpair : (instruction, Fragment.link expansions) ∈ f.code.zip split.routine.code :=
      List.mem_of_getElem? (List.getElem?_zip_eq_some.2 ⟨hpc, hlink⟩)
    exact hm.addressed _ hpair (code, offset) (List.mem_zipIdx_iff_getElem?.2 hcode)
  · rw [(splitWithLimbs_covers h).2.2]
    exact hcandid instruction hi

/-- A routine that splits is accepted if and only if it is candid. -/
theorem validate_iff_candid (h : f.splitWithLimbs field = .ok split) (hm : f.Measured split) :
    f.validate .unbounded = .ok () ↔ f.Candid field.registerWidth := by
  constructor
  · intro hvalid instruction hi
    have haccepted := (validate_ok_iff.1 hvalid).2.2 instruction hi
    refine Instruction.candid_of_validate haccepted ?_
    have hne := (Instruction.validate_ok_iff.1 haccepted).1
    have hlast := List.getElem?_eq_getElem (Nat.sub_one_lt (mt List.length_eq_zero_iff.1 hne))
    have hland := hm.sized.landing_lt hi hlast
    omega
  · intro hcandid
    obtain ⟨-, -, -, -, hroutine, hvalid⟩ := splitWithLimbs_ok h
    have hordered := (validate_ok_iff.1 hvalid).2.1
    rw [(splitOf h).registers_eq] at hordered
    have hordered := (splitOf h).splits.isOrdered_of_limbs hordered
    refine validate_ok_iff.2 ⟨rfl, hordered, fun instruction hi => ?_⟩
    obtain ⟨expansions, hvouched⟩ := hcandid.vouched hm h hi
    exact hvouched.validate

/-- Takes the low half of its input, and does not return. -/
def narrow : Routine where
  name := "narrow"
  registers := [⟨.input, "x", 16, 0⟩, ⟨.output, "y", 8, 0⟩]
  buses := []
  code := [[.cast [.reg 1] (.reg 0) 8]]

/-- The tally is accepted and candid, and `narrow` is neither. -/
theorem validate_iff_candid_tally :
    (∃ split, tally.splitWithLimbs ⟨"small", 12, 4⟩ = .ok split ∧ tally.Measured split ∧
      tally.validate .unbounded = .ok () ∧ tally.Candid 4) ∧
    ∃ split, narrow.splitWithLimbs ⟨"F", 16, 8⟩ = .ok split ∧ narrow.Measured split ∧
      narrow.validate .unbounded ≠ .ok () ∧ ¬ narrow.Candid 8 := by
  have hsplits : ∀ (f : Routine) (field : FieldParams),
      (match f.splitWithLimbs field with
        | .ok split =>
          decide (∀ pair ∈ f.code.zip split.routine.code, ∀ entry ∈ pair.1.zipIdx,
          entry.2 + 1 + entry.1.skipDistance.getD 0 + pair.2.length < Word.modulus)
        | .error _ => false) = true →
      ∃ split, f.splitWithLimbs field = .ok split ∧
        ∀ pair ∈ f.code.zip split.routine.code, ∀ entry ∈ pair.1.zipIdx,
          entry.2 + 1 + entry.1.skipDistance.getD 0 + pair.2.length < Word.modulus := by
    intro f field hcheck
    cases hsplit : f.splitWithLimbs field with
    | error e =>
      rw [hsplit] at hcheck
      cases hcheck
    | ok split =>
      rw [hsplit] at hcheck
      exact ⟨split, rfl, of_decide_eq_true hcheck⟩
  constructor
  · obtain ⟨split, hsplit, haddressed⟩ :=
      hsplits tally ⟨"small", 12, 4⟩ (by decide +kernel)
    have hmeasured : tally.Measured split :=
      ⟨⟨by decide, by decide, by decide⟩, by decide, by decide, haddressed⟩
    have hvalid : tally.validate .unbounded = .ok () := rfl
    exact ⟨split, hsplit, hmeasured, hvalid, (validate_iff_candid hsplit hmeasured).1 hvalid⟩
  · obtain ⟨split, hsplit, haddressed⟩ := hsplits narrow ⟨"F", 16, 8⟩ (by decide +kernel)
    have hmeasured : narrow.Measured split :=
      ⟨⟨by decide, by decide, by decide⟩, by decide, by decide, haddressed⟩
    have hrefused : narrow.validate .unbounded ≠ .ok () := nofun
    exact ⟨split, hsplit, hmeasured, hrefused,
      mt (validate_iff_candid hsplit hmeasured).2 hrefused⟩

/-- Split into bytes, control runs into the failure for the guard of the upper byte: the split
routine is accepted, although the routine has no end. -/
theorem narrow_splits_without_end :
    (∃ split, narrow.splitWithLimbs ⟨"F", 16, 8⟩ = .ok split) ∧
      narrow.validate .unbounded = .error (.validation "narrow" 0 (.fallsThrough 0)) := by
  have hcheck : (narrow.splitWithLimbs ⟨"F", 16, 8⟩).isOk = true := by decide +kernel
  refine ⟨?_, rfl⟩
  cases hsplit : narrow.splitWithLimbs ⟨"F", 16, 8⟩ with
  | error e =>
    rw [hsplit] at hcheck
    cases hcheck
  | ok split => exact ⟨split, rfl⟩

end Routine

end LimbMachine
