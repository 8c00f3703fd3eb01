import LimbMachine.Proofs.Check.Rules

/-!
# Ways through an instruction

A way leads from the first microcode of an instruction to one of its offsets, along successors that
lie ahead, and writes what the microcodes on it write (`Instruction.Way`). The write map is exact:
the state at an offset lists what is written on some and on every way there
(`WriteMap.ofCodes_describes`). So an instruction passes the check of its writes exactly when no way
writes a register twice and all ways to a reader agree on what they have written of it
(`Instruction.checkWrites_ok_iff`).
-/

namespace LimbMachine

/-- A way from the first microcode to an offset, and what is written on it. -/
inductive Instruction.Way (codes : List Microcode) : Nat → List RegId → Prop
  | start : Way codes 0 []
  | step {offset next : Nat} {written : List RegId} {code : Microcode}
    (before : Way codes offset written) (hcode : codes[offset]? = some code)
    (hnext : next ∈ code.successors offset) (hahead : offset < next) :
    Way codes next (written ++ code.writes)

open Instruction (Way)

/-! ## States and sets of ways -/

/-- The state lists what is written on some and on every one of the ways. -/
structure WriteState.Sums (s : WriteState) (ways : List RegId → Prop) : Prop where
  maybe : ∀ i, i ∈ s.maybe ↔ ∃ written, ways written ∧ i ∈ written.map RegId.index
  definitely : ∀ i, i ∈ s.definitely ↔ ∀ written, ways written →
    i ∈ written.map RegId.index

namespace WriteState

variable {s s' : WriteState} {ways ways' : List RegId → Prop} {i : Nat}

theorem mem_foldr_insert {l l' : List Nat} : i ∈ l.foldr insert l' ↔ i ∈ l ∨ i ∈ l' := by
  induction l with
  | nil => simp
  | cons j rest ih => simp only [List.foldr_cons, mem_insert, ih, List.mem_cons, or_assoc]

theorem sums_empty : empty.Sums (· = []) := by
  constructor
  · simp [empty]
  · simp [empty]

theorem Sums.join (h : s.Sums ways) (h' : s'.Sums ways') :
    (s.join s').Sums fun written => ways written ∨ ways' written := by
  constructor
  · intro i
    simp only [WriteState.join, mem_foldr_insert, h.maybe, h'.maybe, or_and_right, exists_or]
    exact or_comm
  · intro i
    simp only [WriteState.join, List.mem_filter, decide_eq_true_eq, h.definitely, h'.definitely,
      or_imp, forall_and]

theorem Sums.record (h : s.Sums ways) (hway : ∃ written, ways written) (ids : List RegId) :
    (s.record ids).Sums fun written => ∃ before, ways before ∧ written = before ++ ids := by
  constructor
  · intro i
    simp only [WriteState.record, mem_foldr_insert, h.maybe]
    constructor
    · rintro (hi | ⟨written, hwritten, hi⟩)
      · obtain ⟨written, hwritten⟩ := hway
        exact ⟨_, ⟨written, hwritten, rfl⟩, by simp [hi]⟩
      · exact ⟨_, ⟨written, hwritten, rfl⟩, by simp [hi]⟩
    · rintro ⟨_, ⟨written, hwritten, rfl⟩, hi⟩
      rw [List.map_append, List.mem_append] at hi
      exact hi.symm.imp_right fun hi => ⟨written, hwritten, hi⟩
  · intro i
    simp only [WriteState.record, mem_foldr_insert, h.definitely]
    constructor
    · rintro hi _ ⟨written, hwritten, rfl⟩
      rw [List.map_append, List.mem_append]
      exact hi.symm.imp_left fun hi => hi written hwritten
    · intro hi
      by_cases hids : i ∈ ids.map RegId.index
      · exact .inl hids
      · refine .inr fun written hwritten => ?_
        have hmem := hi _ ⟨written, hwritten, rfl⟩
        rw [List.map_append, List.mem_append] at hmem
        exact hmem.resolve_right hids

end WriteState

namespace WriteMap

/-- The entry of a write map for a set of ways. -/
def Describes (ways : List RegId → Prop) : Option WriteState → Prop
  | none => ∀ written, ¬ ways written
  | some s => (∃ written, ways written) ∧ s.Sums ways

variable {ways ways' : List RegId → Prop} {entry : Option WriteState}

theorem Describes.congr (h : Describes ways entry)
    (hways : ∀ written, ways' written ↔ ways written) : Describes ways' entry := by
  obtain rfl : ways' = ways := funext fun written => propext (hways written)
  exact h

/-- Further ways arrive. -/
theorem Describes.arrive {exit : WriteState} (h : Describes ways entry)
    (hexit : Describes ways' (some exit)) :
    Describes (fun written => ways written ∨ ways' written) (WriteMap.arrive exit entry) := by
  cases entry with
  | none =>
    refine hexit.congr fun written => ?_
    simp [h written]
  | some s => exact ⟨h.1.imp fun _ hw => .inl hw, h.2.join hexit.2⟩

/-! ## One pass settles the states -/

/-- The ways to an offset whose last microcode stands before offset `limit`. -/
def Arrives (codes : List Microcode) (limit next : Nat) (written : List RegId) : Prop :=
  (next = 0 ∧ written = []) ∨ ∃ offset < limit, ∃ before code, Way codes offset before ∧
    codes[offset]? = some code ∧ next ∈ code.successors offset ∧ offset < next ∧
    written = before ++ code.writes

variable {codes : List Microcode} {offset limit next : Nat} {written : List RegId}

/-- No way to an offset comes from behind it. -/
theorem arrives_self_iff : Arrives codes next next written ↔ Way codes next written := by
  constructor
  · rintro (⟨rfl, rfl⟩ | ⟨offset, -, before, code, hway, hcode, hnext, hahead, rfl⟩)
    · exact .start
    · exact .step hway hcode hnext hahead
  · rintro (_ | ⟨hway, hcode, hnext, hahead⟩)
    · exact .inl ⟨rfl, rfl⟩
    · exact .inr ⟨_, hahead, _, _, hway, hcode, hnext, hahead, rfl⟩

/-- The ways that leave a microcode. -/
def Leaves (codes : List Microcode) (offset : Nat) (code : Microcode) (written : List RegId) :
    Prop :=
  ∃ before, Way codes offset before ∧ written = before ++ code.writes

theorem arrives_succ_iff {code : Microcode} (hcode : codes[limit]? = some code) :
    Arrives codes (limit + 1) next written ↔ Arrives codes limit next written ∨
      (next ∈ code.successors limit ∧ limit < next ∧ Leaves codes limit code written) := by
  constructor
  · rintro (hstart | ⟨offset, hlt, before, code', hway, hcode', hnext, hahead, rfl⟩)
    · exact .inl (.inl hstart)
    · rcases Nat.lt_succ_iff_lt_or_eq.1 hlt with hlt | rfl
      · exact .inl (.inr ⟨offset, hlt, before, code', hway, hcode', hnext, hahead, rfl⟩)
      · rw [hcode] at hcode'
        cases hcode'
        exact .inr ⟨hnext, hahead, before, hway, rfl⟩
  · rintro ((hstart | ⟨offset, hlt, hrest⟩) | ⟨hnext, hahead, before, hway, rfl⟩)
    · exact .inl hstart
    · exact .inr ⟨offset, Nat.lt_succ_of_lt hlt, hrest⟩
    · exact .inr ⟨limit, Nat.lt_succ_self limit, before, code, hway, hcode, hnext, hahead, rfl⟩

/-- Every state of the map describes its ways, offsets counted from `base`. -/
def Settled (ways : Nat → List RegId → Prop) (base : Nat) (states : WriteMap) : Prop :=
  ∀ (j : Nat) (entry : Option WriteState), states[j]? = some entry →
    Describes (ways (base + j)) entry

/-- What leaves a microcode arrives at its successors. -/
theorem Settled.foldl_arrive {ways : Nat → List RegId → Prop} {states : WriteMap}
    {exit : WriteState} {exits : List RegId → Prop} (h : Settled ways (offset + 1) states)
    (hexit : Describes exits (some exit)) (nexts : List Nat) :
    Settled (fun next written => ways next written ∨
      (next ∈ nexts ∧ offset < next ∧ exits written)) (offset + 1)
      (nexts.foldl (fun states next =>
        if offset < next then states.modify (next - (offset + 1)) (arrive exit)
        else states) states) := by
  induction nexts generalizing ways states with
  | nil =>
    intro j entry hentry
    exact (h j entry hentry).congr fun written => by simp
  | cons next nexts ih =>
    -- the states after the first of the successors
    have hfirst :
        Settled (fun n written => ways n written ∨ (n = next ∧ offset < n ∧ exits written))
          (offset + 1) (if offset < next then states.modify (next - (offset + 1)) (arrive exit)
            else states) := by
      intro j entry hentry
      by_cases hahead : offset < next
      · rw [if_pos hahead, List.getElem?_modify] at hentry
        obtain ⟨before, hbefore, rfl⟩ := Option.map_eq_some_iff.1 hentry
        have hdescribes := h j before hbefore
        by_cases hj : next - (offset + 1) = j
        · rw [if_pos hj]
          refine (hdescribes.arrive hexit).congr fun written => ?_
          have hsame : offset + 1 + j = next := by omega
          simp only [hsame, hahead, true_and]
        · rw [if_neg hj]
          refine hdescribes.congr fun written => ?_
          have hother : offset + 1 + j ≠ next := by omega
          simp only [hother, false_and, or_false]
      · rw [if_neg hahead] at hentry
        refine (h j entry hentry).congr fun written => ?_
        have hother : offset + 1 + j ≠ next := by omega
        simp only [hother, false_and, or_false]
    intro j entry hentry
    refine (ih hfirst j entry hentry).congr fun written => ?_
    simp only [List.mem_cons, or_and_right, or_assoc]

theorem length_flow (code : Microcode) (offset : Nat) (s : WriteState) (later : WriteMap) :
    (flow code offset s later).length = later.length := by
  unfold flow
  generalize code.successors offset = nexts
  induction nexts generalizing later with
  | nil => rfl
  | cons next nexts ih =>
    rw [List.foldl_cons, ih]
    split
    · exact List.length_modify ..
    · rfl

/-- The states behind a microcode once what leaves it has arrived. -/
def passOn (code : Microcode) (offset : Nat) (later : WriteMap) : Option WriteState → WriteMap
  | some s => flow code offset s later
  | none => later

theorem settle_cons (offset : Nat) (code : Microcode) (codes : List Microcode)
    (entry : Option WriteState) (later : WriteMap) :
    settle offset (code :: codes) (entry :: later) =
      entry :: settle (offset + 1) codes (passOn code offset later entry) := by
  cases entry <;> rfl

/-- The states from `offset` on are settled from the ways that come from before it. -/
theorem settled_settle {rest : List Microcode} {states : WriteMap}
    (hrest : codes.drop offset = rest) (hlength : states.length = rest.length)
    (h : Settled (Arrives codes offset) offset states) :
    Settled (Way codes) offset (settle offset rest states) ∧
      (settle offset rest states).length = rest.length := by
  induction rest generalizing offset states with
  | nil =>
    obtain rfl := List.length_eq_zero_iff.1 hlength
    exact ⟨fun j entry hentry => by simp [settle] at hentry, rfl⟩
  | cons code rest ih =>
    obtain ⟨entry, later, rfl⟩ := List.exists_cons_of_length_eq_add_one hlength
    have hhere : Describes (Way codes offset) entry :=
      (h 0 entry rfl).congr fun written => arrives_self_iff.symm
    have hcode : codes[offset]? = some code := by
      rw [← Nat.add_zero offset, ← List.getElem?_drop, hrest]
      rfl
    have hdrop : codes.drop (offset + 1) = rest := by rw [← List.tail_drop, hrest, List.tail_cons]
    have hlater : Settled (Arrives codes offset) (offset + 1) later := by
      intro j entry hentry
      rw [Nat.add_right_comm, Nat.add_assoc]
      exact h (j + 1) entry hentry
    have hflow :
        Settled (Arrives codes (offset + 1)) (offset + 1) (passOn code offset later entry) := by
      cases entry with
      | none =>
        intro j entry hentry
        refine (hlater j entry hentry).congr fun written => ?_
        rw [arrives_succ_iff hcode]
        refine ⟨fun harrives => harrives.resolve_right ?_, .inl⟩
        rintro ⟨-, -, before, hway, -⟩
        exact hhere before hway
      | some s =>
        have hexit : Describes (Leaves codes offset code) (some (s.record code.writes)) :=
          ⟨hhere.1.imp' (· ++ code.writes) fun before hway => ⟨before, hway, rfl⟩,
            hhere.2.record hhere.1 code.writes⟩
        intro j entry hentry
        refine (hlater.foldl_arrive hexit (code.successors offset) j entry hentry).congr
          fun written => ?_
        exact arrives_succ_iff hcode
    have hlength' : (passOn code offset later entry).length = rest.length := by
      have hlater : later.length = rest.length := Nat.succ.inj hlength
      cases entry with
      | none => exact hlater
      | some s => exact (length_flow _ _ _ _).trans hlater
    obtain ⟨hsettled, hsettledLength⟩ := ih hdrop hlength' hflow
    rw [settle_cons]
    refine ⟨fun j entry' hentry' => ?_, congrArg Nat.succ hsettledLength⟩
    cases j with
    | zero =>
      cases hentry'
      exact hhere
    | succ j =>
      rw [← Nat.add_assoc, Nat.add_right_comm]
      exact hsettled j entry' hentry'

theorem settled_ofCodes (codes : List Microcode) :
    Settled (Way codes) 0 (ofCodes codes) ∧ (ofCodes codes).length = codes.length := by
  cases codes with
  | nil => exact ⟨fun j entry hentry => by simp [ofCodes] at hentry, rfl⟩
  | cons code rest =>
    refine settled_settle rfl (by simp) fun j entry hentry => ?_
    -- only the first microcode has a way to it that comes from nowhere
    have harrives : ∀ written, Arrives (code :: rest) 0 (0 + j) written ↔
        j = 0 ∧ written = [] := by
      intro written
      simp [Arrives]
    cases j with
    | zero =>
      cases hentry
      have hempty : Describes (· = []) (some WriteState.empty) :=
        ⟨⟨[], rfl⟩, WriteState.sums_empty⟩
      exact hempty.congr fun written => by simp [harrives]
    | succ j =>
      rw [List.getElem?_cons_succ, List.getElem?_map] at hentry
      obtain ⟨later, -, rfl⟩ := Option.map_eq_some_iff.1 hentry
      intro written hwritten
      simpa using ((harrives written).1 hwritten).1

/-- The write map is exact. -/
theorem ofCodes_describes {entry : Option WriteState} (h : (ofCodes codes)[offset]? = some entry) :
    Describes (Way codes offset) entry := by
  have hsettled := (settled_ofCodes codes).1 offset entry h
  rwa [Nat.zero_add] at hsettled

end WriteMap

/-! ## The check of writes -/

namespace Instruction

variable {scope : Scope} {instruction : Instruction} {offset : Nat} {written : List RegId}
    {id : RegId}

theorem Way.isUsed (h : Way instruction offset written) : ∀ id ∈ written, id.isUsed = true := by
  induction h with
  | start => simp
  | step _ _ _ _ ih =>
    intro id hid
    rcases List.mem_append.1 hid with hid | hid
    · exact ih id hid
    · exact (List.mem_filter.1 hid).2

theorem index_mem_iff (hid : id.isUsed = true) (h : ∀ id ∈ written, id.isUsed = true) :
    id.index ∈ written.map RegId.index ↔ id ∈ written := by
  refine ⟨fun hmem => ?_, List.mem_map_of_mem⟩
  obtain ⟨id', hmem, heq⟩ := List.mem_map.1 hmem
  have hid' := h id' hmem
  cases id with
  | unused => cases hid
  | reg i =>
    cases id' with
    | unused => cases hid'
    | reg j =>
      cases heq
      exact hmem

/-- All ways to a microcode agree on what they have written of the registers it reads, and none has
written a register that it writes. -/
def Settles (instruction : Instruction) (offset : Nat) (code : Microcode) : Prop :=
  (∀ id ∈ code.reads, ∀ written written', Way instruction offset written →
    Way instruction offset written' → id ∈ written → id ∈ written') ∧
  ∀ id ∈ code.writes, ∀ written, Way instruction offset written → id ∉ written

theorem checkConflicts_ok_iff {code : Microcode} {entry : WriteState} :
    checkConflicts scope code offset entry = .ok () ↔
      (∀ id ∈ code.reads, entry.isAmbiguous id = false) ∧
        ∀ id ∈ code.writes, entry.mayWrite id = false := by
  unfold checkConflicts
  cases hread : code.reads.find? entry.isAmbiguous with
  | some id =>
    simp only [reduceCtorEq, false_iff]
    rintro ⟨hreads, -⟩
    have hid := List.find?_some hread
    rw [hreads id (List.mem_of_find?_eq_some hread)] at hid
    cases hid
  | none =>
    have hreads : ∀ id ∈ code.reads, entry.isAmbiguous id = false := by
      simpa [List.find?_eq_none] using hread
    cases hwrite : code.writes.find? entry.mayWrite with
    | some id =>
      simp only [reduceCtorEq, false_iff]
      rintro ⟨-, hwrites⟩
      have hid := List.find?_some hwrite
      rw [hwrites id (List.mem_of_find?_eq_some hwrite)] at hid
      cases hid
    | none =>
      have hwrites : ∀ id ∈ code.writes, entry.mayWrite id = false := by
        simpa [List.find?_eq_none] using hwrite
      simp only [true_iff]
      exact ⟨hreads, hwrites⟩

theorem Settles.of_unreachable {code : Microcode}
    (h : ∀ written, ¬ Way instruction offset written) : instruction.Settles offset code :=
  ⟨fun _ _ written _ hway => absurd hway (h written),
    fun _ _ written hway => absurd hway (h written)⟩

/-- A state that describes the ways to a microcode says whether they are in conflict with it. -/
theorem conflicts_iff_settles {code : Microcode} {entry : WriteState}
    (h : WriteMap.Describes (Way instruction offset) (some entry)) :
    checkConflicts scope code offset entry = .ok () ↔ instruction.Settles offset code := by
  have hmay : ∀ id, id.isUsed = true → (entry.mayWrite id = true ↔
      ∃ written, Way instruction offset written ∧ id ∈ written) := by
    intro id hid
    rw [WriteState.mayWrite, List.contains_iff_mem, h.2.maybe]
    exact exists_congr fun written => and_congr_right fun hway => index_mem_iff hid hway.isUsed
  have hmust : ∀ id, id.isUsed = true → (id.index ∈ entry.definitely ↔
      ∀ written, Way instruction offset written → id ∈ written) := by
    intro id hid
    rw [h.2.definitely]
    exact forall_congr' fun written => forall_congr' fun hway => index_mem_iff hid hway.isUsed
  rw [checkConflicts_ok_iff]
  refine and_congr (forall_congr' fun id => forall_congr' fun hread => ?_)
    (forall_congr' fun id => forall_congr' fun hwrite => ?_)
  · have hid := (List.mem_filter.1 hread).2
    have hambiguous :
        entry.isAmbiguous id = (entry.mayWrite id && !entry.definitely.contains id.index) :=
      rfl
    rw [hambiguous, Bool.and_eq_false_imp, hmay id hid, Bool.not_eq_false', List.contains_iff_mem,
      hmust id hid]
    constructor
    · intro hagree written written' hway hway' hmem
      exact hagree ⟨written, hway, hmem⟩ written' hway'
    · rintro hagree ⟨written, hway, hmem⟩ written' hway'
      exact hagree written written' hway hway' hmem
  · have hid := (List.mem_filter.1 hwrite).2
    rw [← Bool.not_eq_true, hmay id hid]
    simp only [not_exists, not_and]

theorem checkWrites_ok_iff : checkWrites scope instruction = .ok () ↔
    ∀ (offset : Nat) (code : Microcode), instruction[offset]? = some code →
      instruction.Settles offset code := by
  obtain ⟨-, hlength⟩ := WriteMap.settled_ofCodes instruction
  unfold checkWrites
  rw [except_forM_ok]
  constructor
  · intro h offset code hcode
    have hoffset : offset < (WriteMap.ofCodes instruction).length := by
      rw [hlength]
      exact (List.getElem?_eq_some_iff.1 hcode).1
    have hentry := List.getElem?_eq_getElem hoffset
    have hdescribes := WriteMap.ofCodes_describes hentry
    have hcheck := h ((code, (WriteMap.ofCodes instruction)[offset]), offset)
      (List.mem_zipIdx_iff_getElem?.2 (List.getElem?_zip_eq_some.2 ⟨hcode, hentry⟩))
    generalize (WriteMap.ofCodes instruction)[offset] = entry at hdescribes hcheck
    cases entry with
    | none => exact .of_unreachable hdescribes
    | some s => exact (conflicts_iff_settles hdescribes).1 hcheck
  · rintro h ⟨⟨code, entry⟩, offset⟩ hmem
    obtain ⟨hcode, hentry⟩ := List.getElem?_zip_eq_some.1 (List.mem_zipIdx_iff_getElem?.1 hmem)
    cases entry with
    | none => rfl
    | some s =>
      exact (conflicts_iff_settles (WriteMap.ofCodes_describes hentry)).2 (h offset code hcode)

end Instruction

end LimbMachine
